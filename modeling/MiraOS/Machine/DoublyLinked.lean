import Mathlib.Data.List.Nodup
import Mathlib.Logic.Function.Basic

/-! Doubly linked lists threaded through two link functions. -/

namespace Machine

section

variable {Node : Type} {next prev next' prev' : Node → Node} {before after before' after' : Node}
  {node : Node} {nodes front back : List Node}

/-- The nodes are linked both ways, from a node before them to a node after them. -/
def TwoWay (next prev : Node → Node) (after : Node) : Node → List Node → Prop
  | _, [] => True
  | before, node :: rest =>
    prev node = before ∧ next node = rest.headD after ∧ TwoWay next prev after node rest

/-- The nodes of two runs are linked when each run is and the runs meet. -/
theorem twoWay_append :
    TwoWay next prev after before (front ++ back) ↔
      TwoWay next prev (back.headD after) before front ∧
        TwoWay next prev after (front.getLastD before) back := by
  -- The runs meet where the last node of one links to the first of the other, both ways.
  induction front generalizing before with
  | nil => simp [TwoWay]
  | cons node rest ih =>
    -- An empty run in front passes the ends of the other one through.
    have heads : (rest ++ back).headD after = rest.headD (back.headD after) := by
      cases rest with
      | nil => rfl
      | cons => rfl
    have lasts : (node :: rest).getLastD before = rest.getLastD node := by
      cases rest with
      | nil => rfl
      | cons => rfl
    rw [List.cons_append, TwoWay, TwoWay, ih, heads, lasts]
    tauto

/-- Linked nodes stay linked, between other ends, when only the outward links change. -/
theorem TwoWay.rewire (linked : TwoWay next prev after before nodes) (nodup : nodes.Nodup)
    (nexts : ∀ a ∈ nodes, nodes.getLast? ≠ some a → next' a = next a)
    (last : ∀ a, nodes.getLast? = some a → next' a = after')
    (prevs : ∀ a ∈ nodes, nodes.head? ≠ some a → prev' a = prev a)
    (first : ∀ a, nodes.head? = some a → prev' a = before') :
    TwoWay next' prev' after' before' nodes := by
  -- Only the forward link of the last node and the backward link of the first leave the run.
  induction nodes generalizing before before' with
  | nil => trivial
  | cons node rest ih =>
    obtain ⟨-, forward, others⟩ := linked
    obtain ⟨fresh, distinct⟩ := List.nodup_cons.mp nodup
    refine ⟨first node rfl, ?_, ?_⟩
    · cases rest with
      | nil => exact last node rfl
      | cons second more =>
        rw [nexts node List.mem_cons_self, forward]
        · rfl
        · -- The last node is a later one, and the nodes are distinct.
          intro same
          rw [List.getLast?_cons_cons] at same
          exact fresh (List.mem_of_getLast? same)
    -- The rest begins one node later, with this node before it.
    · apply ih others distinct
      · intro a among notLast
        apply nexts a (List.mem_cons_of_mem _ among)
        cases rest with
        | nil => cases among
        | cons second more => rwa [List.getLast?_cons_cons]
      · intro a found
        apply last a
        cases rest with
        | nil => cases found
        | cons second more => rwa [List.getLast?_cons_cons]
      · intro a among notFirst
        apply prevs a (List.mem_cons_of_mem _ among)
        intro same
        obtain rfl : node = a := Option.some.inj same
        exact fresh among
      · intro a found
        have among : a ∈ rest := List.mem_of_head? found
        cases rest with
        | nil => cases among
        | cons second more =>
          -- The backward link of the second node is an inner one of the whole run.
          obtain rfl : second = a := Option.some.inj found
          rw [prevs second (List.mem_cons_of_mem _ among), others.1]
          intro same
          obtain rfl : node = second := Option.some.inj same
          exact fresh among

/-- Linked nodes stay linked when no link of theirs changes. -/
theorem TwoWay.frame (linked : TwoWay next prev after before nodes)
    (nexts : ∀ a ∈ nodes, next' a = next a) (prevs : ∀ a ∈ nodes, prev' a = prev a) :
    TwoWay next' prev' after before nodes := by
  -- The links of each node are compared on their own, front to back.
  induction nodes generalizing before with
  | nil => trivial
  | cons node rest ih =>
    obtain ⟨back, forward, others⟩ := linked
    refine ⟨(prevs node List.mem_cons_self).trans back, (nexts node List.mem_cons_self).trans forward,
      ih others (fun a among => nexts a (List.mem_cons_of_mem _ among))
        fun a among => prevs a (List.mem_cons_of_mem _ among)⟩

/-- A list of distinct nodes, none of them null, with null beyond both ends. -/
structure DList (null : Node) (next prev : Node → Node) (nodes : List Node) : Prop where
  nodup : nodes.Nodup
  solid : null ∉ nodes
  linked : TwoWay next prev null null nodes

variable {null : Node}

/-- The empty list. -/
theorem dList_nil : DList null next prev [] := ⟨List.nodup_nil, by simp, trivial⟩

/-- The link of a node to the next one. -/
theorem DList.next_eq (list : DList null next prev (front ++ node :: back)) :
    next node = back.headD null :=
  (twoWay_append.mp list.linked).2.2.1

/-- The link of a node to the one before. -/
theorem DList.prev_eq (list : DList null next prev (front ++ node :: back)) :
    prev node = front.getLastD null :=
  (twoWay_append.mp list.linked).2.1

/-- A list stays as it is when no link of its nodes changes. -/
theorem DList.frame (list : DList null next prev nodes) (nexts : ∀ a ∈ nodes, next' a = next a)
    (prevs : ∀ a ∈ nodes, prev' a = prev a) : DList null next' prev' nodes :=
  ⟨list.nodup, list.solid, list.linked.frame nexts prevs⟩

/-- A node is linked in at the end. -/
theorem DList.pushBack (list : DList null next prev nodes) (new : node ∉ nodes) (real : node ≠ null)
    (forward : next' node = null) (backward : prev' node = nodes.getLastD null)
    (last : ∀ a, nodes.getLast? = some a → next' a = node)
    (nexts : ∀ a ∈ nodes, nodes.getLast? ≠ some a → next' a = next a)
    (prevs : ∀ a ∈ nodes, prev' a = prev a) : DList null next' prev' (nodes ++ [node]) := by
  -- The new node is a run of its own, behind a run whose last link alone is rewired.
  refine ⟨?_, ?_, ?_⟩
  · exact List.nodup_append.mpr ⟨list.nodup, List.nodup_singleton node, fun a among b single => by
      rintro rfl
      rw [List.mem_singleton.mp single] at among
      exact new among⟩
  · intro among
    rcases List.mem_append.mp among with old | same
    · exact list.solid old
    · exact real (List.mem_singleton.mp same).symm
  · refine twoWay_append.mpr ⟨?_, backward, forward, trivial⟩
    apply list.linked.rewire list.nodup nexts last
    · exact fun a among _ => prevs a among
    · intro a found
      -- The first node still has null before it.
      rw [prevs a (List.mem_of_head? found)]
      cases nodes with
      | nil => cases found
      | cons first rest =>
        obtain rfl : first = a := Option.some.inj found
        exact list.linked.1

/-- A node is linked in at the front. -/
theorem DList.pushFront (list : DList null next prev nodes) (new : node ∉ nodes) (real : node ≠ null)
    (forward : next' node = nodes.headD null) (backward : prev' node = null)
    (first : ∀ a, nodes.head? = some a → prev' a = node)
    (prevs : ∀ a ∈ nodes, nodes.head? ≠ some a → prev' a = prev a)
    (nexts : ∀ a ∈ nodes, next' a = next a) : DList null next' prev' (node :: nodes) := by
  -- The old list follows the new node, with only its outward backward link changed.
  refine ⟨List.nodup_cons.mpr ⟨new, list.nodup⟩, ?_, backward, forward, ?_⟩
  · intro among
    rcases List.mem_cons.mp among with same | old
    · exact real same.symm
    · exact list.solid old
  · apply list.linked.rewire list.nodup (fun a among _ => nexts a among)
    · intro a found
      rw [nexts a (List.mem_of_getLast? found)]
      -- The last node still has null behind it.
      obtain ⟨init, rfl⟩ := List.getLast?_eq_some_iff.mp found
      exact (twoWay_append.mp list.linked).2.2.1
    · exact prevs
    · exact first

/-- A node is linked out. -/
theorem DList.unlink (list : DList null next prev (front ++ node :: back))
    (last : ∀ a, front.getLast? = some a → next' a = back.headD null)
    (first : ∀ a, back.head? = some a → prev' a = front.getLastD null)
    (nexts : ∀ a ∈ front ++ back, front.getLast? ≠ some a → next' a = next a)
    (prevs : ∀ a ∈ front ++ back, back.head? ≠ some a → prev' a = prev a) :
    DList null next' prev' (front ++ back) := by
  -- Without the node the run before it and the run behind it meet directly.
  have fewer : List.Sublist (front ++ back) (front ++ node :: back) :=
    (List.Sublist.refl front).append (List.sublist_cons_self node back)
  obtain ⟨before, -, -, behind⟩ := twoWay_append.mp list.linked
  obtain ⟨frontDistinct, tailDistinct, apart⟩ := List.nodup_append.mp list.nodup
  obtain ⟨-, backDistinct⟩ := List.nodup_cons.mp tailDistinct
  refine ⟨list.nodup.sublist fewer, fun among => list.solid (fewer.subset among), ?_⟩
  refine twoWay_append.mpr ⟨?_, ?_⟩
  · -- Before the node only the last link forward changes.
    apply before.rewire frontDistinct
      (fun a among notLast => nexts a (List.mem_append_left _ among) notLast) last
    · intro a among _
      apply prevs a (List.mem_append_left _ among)
      intro found
      exact apart a among a (List.mem_cons_of_mem _ (List.mem_of_head? found)) rfl
    · intro a found
      have among := List.mem_of_head? found
      rw [prevs a (List.mem_append_left _ among)]
      · cases front with
        | nil => cases found
        | cons start rest =>
          obtain rfl : start = a := Option.some.inj found
          exact before.1
      · intro head
        exact apart a among a (List.mem_cons_of_mem _ (List.mem_of_head? head)) rfl
  -- Behind the node only the first link backward changes.
  · apply behind.rewire backDistinct
    · intro a among _
      apply nexts a (List.mem_append_right _ among)
      intro found
      -- A node cannot lie on both sides, since the nodes are distinct.
      exact apart a (List.mem_of_getLast? found) a (List.mem_cons_of_mem _ among) rfl
    · intro a found
      have among := List.mem_of_getLast? found
      rw [nexts a (List.mem_append_right _ among)]
      · obtain ⟨init, rfl⟩ := List.getLast?_eq_some_iff.mp found
        exact (twoWay_append.mp behind).2.2.1
      · intro last
        exact apart a (List.mem_of_getLast? last) a (List.mem_cons_of_mem _ among) rfl
    · exact fun a among notFirst => prevs a (List.mem_append_right _ among) notFirst
    · exact first

/-- The first node of a list without null. -/
theorem head?_eq_some_iff (solid : null ∉ nodes) :
    nodes.head? = some node ↔ node ≠ null ∧ node = nodes.headD null := by
  -- Without null in the list, its default answer says that the list is empty.
  cases nodes with
  | nil => simp
  | cons first rest =>
    have real : first ≠ null := fun same => solid (by rw [same]; exact List.mem_cons_self)
    constructor
    · intro found
      obtain rfl : first = node := Option.some.inj found
      exact ⟨real, rfl⟩
    · rintro ⟨-, rfl⟩
      rfl

/-- The last node of a list without null. -/
theorem getLast?_eq_some_iff (solid : null ∉ nodes) :
    nodes.getLast? = some node ↔ node ≠ null ∧ node = nodes.getLastD null := by
  -- The last node is not null, so that null as the answer stands for no node at all.
  cases found : nodes.getLast? with
  | none =>
    obtain rfl := List.getLast?_eq_none_iff.mp found
    simp
  | some last =>
    obtain ⟨init, rfl⟩ := List.getLast?_eq_some_iff.mp found
    have real : last ≠ null := fun same => solid (by simp [same])
    constructor
    · intro same
      obtain rfl : last = node := Option.some.inj same
      exact ⟨real, by simp⟩
    · rintro ⟨-, rfl⟩
      simp

/-- A list without null has null for its first node exactly when it is empty. -/
theorem headD_eq_null (solid : null ∉ nodes) : nodes.headD null = null ↔ nodes = [] := by
  -- A list that starts with null would hold it.
  cases nodes with
  | nil => simp
  | cons first rest =>
    refine ⟨fun same => absurd ?_ solid, fun empty => by cases empty⟩
    have same : first = null := same
    rw [same]
    exact List.mem_cons_self

/-- A list without null has null for its last node exactly when it is empty. -/
theorem getLastD_eq_null (solid : null ∉ nodes) : nodes.getLastD null = null ↔ nodes = [] := by
  -- A last node that exists is a node of the list, so it cannot be null.
  refine ⟨fun same => ?_, fun empty => by rw [empty]; rfl⟩
  cases found : nodes.getLast? with
  | none => exact List.getLast?_eq_none_iff.mp found
  | some last => exact absurd ((getLast?_eq_some_iff solid).mp found).2 (fun alike =>
      ((getLast?_eq_some_iff solid).mp found).1 (alike.trans same))

/-- A node that is met on the way along the links, before null. -/
inductive Met (null : Node) (next : Node → Node) : Node → Node → Prop where
  | here {node : Node} (real : node ≠ null) : Met null next node node
  | later {node target : Node} (real : node ≠ null) (rest : Met null next (next node) target) :
      Met null next node target

/-- From null on nothing is met. -/
theorem not_met_null : ¬ Met null next null node := by
  intro met
  -- A walk that has met null would have gone through it.
  cases met with
  | here real => exact real rfl
  | later real => exact real rfl

/-- A node that is met is not null. -/
theorem Met.ne_null {start : Node} (met : Met null next start node) : node ≠ null := by
  -- The walk stops at null before it compares any node with it.
  induction met with
  | here real => exact real
  | later _ _ ih => exact ih

/-- From a set of nodes that the links stay in, only its nodes are met. -/
theorem Met.among {start : Node} (met : Met null next start node)
    (closed : ∀ a ∈ nodes, next a ≠ null → next a ∈ nodes) (inside : start ∈ nodes) : node ∈ nodes := by
  induction met with
  | here => exact inside
  | @later start _ _ rest ih =>
    -- The walk goes on, so the next node is not null and stays in the set.
    have real : next start ≠ null := by
      intro same
      rw [same] at rest
      exact not_met_null rest
    exact ih (closed start inside real)

/-- The links of a list stay in it. -/
theorem DList.closed (list : DList null next prev nodes) :
    ∀ a ∈ nodes, next a ≠ null → next a ∈ nodes := by
  -- The link of a node is the first of those behind it, or null at the end of the list.
  intro a among real
  obtain ⟨front, back, rfl⟩ := List.append_of_mem among
  rw [list.next_eq] at real ⊢
  cases back with
  | nil => exact absurd rfl real
  | cons first rest => exact List.mem_append_right _ (List.mem_cons_of_mem _ List.mem_cons_self)

/-- Along linked nodes exactly these are met. -/
theorem TwoWay.met_iff (linked : TwoWay next prev null before nodes) (solid : null ∉ nodes) :
    Met null next (nodes.headD null) node ↔ node ∈ nodes := by
  -- The walk takes one node off the front at a time, and ends at the null behind the last one.
  induction nodes generalizing before with
  | nil => exact ⟨fun met => absurd met not_met_null, fun among => by cases among⟩
  | cons first rest ih =>
    obtain ⟨-, forward, others⟩ := linked
    have real : first ≠ null := fun same => solid (by rw [same]; exact List.mem_cons_self)
    have later := ih others fun among => solid (List.mem_cons_of_mem _ among)
    constructor
    · intro met
      cases met with
      | here => exact List.mem_cons_self
      | later _ met =>
        have met : Met null next (next first) node := met
        rw [forward] at met
        exact List.mem_cons_of_mem _ (later.mp met)
    · intro among
      rcases List.mem_cons.mp among with rfl | among
      · exact .here real
      · refine .later real ?_
        show Met null next (next first) node
        rw [forward]
        exact later.mpr among

end

end Machine

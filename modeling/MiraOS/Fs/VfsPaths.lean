import MiraOS.Fs.VfsLookup
import MiraOS.Fs.VfsShape
import MiraOS.Machine.Paths

/-! A path names its node by its components, as long as these fit into the buffer of the walk. -/

namespace MiraOS

open Machine

/-- The names between the slashes of a path. -/
def pathComponents (path : List UInt8) : List (List UInt8) := components 0x2F path

/-- The names that the walks down the tree take from a path, of as many bytes as a name can have. -/
def pathPieces (path : List UInt8) : List (List UInt8) := pieces 0x2F vfsNameMax path

/-- The path is a component and the rest, and the component ends at the limit, at a slash or at the end. -/
theorem takeComponent_split (limit : Nat) (path : List UInt8) :
    path = (takeComponent limit path).1 ++ (takeComponent limit path).2 ∧
      ((takeComponent limit path).1.length = limit ∨ (takeComponent limit path).2 = [] ∨
        ∃ more, (takeComponent limit path).2 = 0x2F :: more) := by
  -- The component ends with the first of the three that comes.
  induction limit generalizing path with
  | zero => exact ⟨rfl, .inl rfl⟩
  | succ limit ih =>
    cases path with
    | nil => exact ⟨rfl, .inr (.inl rfl)⟩
    | cons byte path =>
      rw [takeComponent]
      by_cases slash : byte = 0x2F
      · rw [if_pos slash, slash]
        exact ⟨rfl, .inr (.inr ⟨path, rfl⟩)⟩
      · rw [if_neg slash]
        obtain ⟨whole, ends⟩ := ih path
        refine ⟨congrArg (byte :: ·) whole, ?_⟩
        rcases ends with full | ends
        · exact .inl (congrArg (· + 1) full)
        · exact .inr ends

/-- The slash that a path may start with gives it no other pieces. -/
@[simp] theorem pathPieces_skipSlash (path : List UInt8) : pathPieces (skipSlash path) = pathPieces path := by
  -- Pieces are what lies between slashes, so that a slash in front makes none.
  cases path with
  | nil => rfl
  | cons byte path =>
    rw [skipSlash]
    by_cases slash : byte = 0x2F
    · rw [if_pos slash, slash, pathPieces, pathPieces, pieces_sep]
    · rw [if_neg slash]

@[simp] theorem pathPieces_nil : pathPieces [] = [] := pieces_nil _ _

section

variable {path component rest : List UInt8}

/-- A turn of a walk that finds no component passes over a slash. -/
theorem pathPieces_empty (taken : takeComponent vfsNameMax path = (component, rest))
    (empty : component = []) : pathPieces path = pathPieces (skipSlash rest) := by
  -- An empty component is a slash that the turn takes off.
  have split := (takeComponent_split vfsNameMax path).1
  rw [taken] at split
  rw [pathPieces_skipSlash, split, empty]
  rfl

/-- A turn of a walk takes the first piece. -/
theorem pathPieces_turn (taken : takeComponent vfsNameMax path = (component, rest))
    (filled : component ≠ []) : pathPieces path = component :: pathPieces (skipSlash rest) := by
  obtain ⟨split, ends⟩ := takeComponent_split vfsNameMax path
  obtain ⟨short, plain⟩ := takeComponent_plain vfsNameMax path
  -- The component has no slash in it, and it ends where a piece ends.
  rw [taken] at split ends short plain
  rw [pathPieces_skipSlash, split]
  exact pieces_append plain filled short ends

end

section

variable {vfs next : Vfs}

/-- The links and names of the nodes are the same, whatever their bytes. -/
structure SameLinks (vfs next : Vfs) : Prop where
  root : next.rootNode = vfs.rootNode
  linked : next.linked = vfs.linked
  children : ∀ node, (next.nodes node).children = (vfs.nodes node).children
  count : ∀ node, (next.nodes node).childCount = (vfs.nodes node).childCount
  sibling : ∀ node, (next.nodes node).nextSibling = (vfs.nodes node).nextSibling
  parent : ∀ node, (next.nodes node).parent = (vfs.nodes node).parent
  name : ∀ node, (next.nodes node).name = (vfs.nodes node).name

/-- The same nodes have the same links. -/
theorem sameLinks_of_nodes (root : next.rootNode = vfs.rootNode) (linked : next.linked = vfs.linked)
    (nodes : next.nodes = vfs.nodes) : SameLinks vfs next := by
  refine ⟨root, linked, fun _ => ?_, fun _ => ?_, fun _ => ?_, fun _ => ?_, fun _ => ?_⟩
  all_goals rw [nodes]

/-- One change after another. -/
theorem SameLinks.trans {middle : Vfs} (first : SameLinks vfs middle) (second : SameLinks middle next) :
    SameLinks vfs next :=
  -- Every link is the same, one after the other.
  ⟨second.root.trans first.root, second.linked.trans first.linked,
    fun node => (second.children node).trans (first.children node),
    fun node => (second.count node).trans (first.count node),
    fun node => (second.sibling node).trans (first.sibling node),
    fun node => (second.parent node).trans (first.parent node),
    fun node => (second.name node).trans (first.name node)⟩

/-- A change of the bytes of a file changes no link. -/
theorem sameLinks_withNode {node data size : Nat} :
    SameLinks vfs (vfs.withNode node { vfs.nodes node with data := data, size := size }) := by
  -- Only this node is stored, and its links are stored as they were.
  have fields : ∀ other, (vfs.withNode node { vfs.nodes node with data := data, size := size }).nodes other =
      if other = node then { vfs.nodes node with data := data, size := size } else vfs.nodes other := by
    intro other
    by_cases here : other = node
    · rw [if_pos here, here]
      exact Function.update_self ..
    · rw [if_neg here]
      exact Function.update_of_ne here ..
  refine ⟨rfl, rfl, fun other => ?_, fun other => ?_, fun other => ?_, fun other => ?_, fun other => ?_⟩
  all_goals
    rw [fields other]
    by_cases here : other = node
    · rw [if_pos here, here]
    · rw [if_neg here]

/-- Moving on in an open file changes no link. -/
theorem sameLinks_advance (fd : Int) (file : OpenFile) (n : Int) : SameLinks vfs (vfs.advance fd file n) := by
  unfold Vfs.advance
  -- At most the table of open files is stored.
  by_cases some : 0 < n
  · rw [if_pos some]
    exact sameLinks_of_nodes rfl rfl rfl
  · rw [if_neg some]
    exact sameLinks_of_nodes rfl rfl rfl

/-- Storing bytes into the block of a file changes no link. -/
theorem sameLinks_store {node count offset : Nat} {buf : Nat → UInt8} {n : Int}
    (ran : vfsStore node buf count offset vfs = .ok (n, next)) : SameLinks vfs next := by
  -- Storing bytes writes a block and leaves every node as it was.
  obtain ⟨bytes, -, ran⟩ := bind_eq_ok.mp ran
  cases ran
  exact sameLinks_of_nodes rfl rfl rfl

/-- Moving a file to a larger block changes no link. -/
theorem sameLinks_grow {newData newSize node : Nat} (ran : vfsGrow newData newSize node vfs = .ok next) :
    SameLinks vfs next := by
  unfold vfsGrow at ran
  -- With an old block or without, the new one is stored into the node last.
  by_cases filled : (vfs.nodes node).data ≠ 0 ∧ 0 < (vfs.nodes node).size
  · simp only [if_pos filled] at ran
    obtain ⟨bytes, -, ran⟩ := bind_eq_ok.mp ran
    cases ran
    have outside : SameLinks vfs ((vfs.kfree (vfs.nodes node).data).withBlock newData bytes) :=
      sameLinks_of_nodes rfl rfl rfl
    exact outside.trans sameLinks_withNode
  · simp only [if_neg filled] at ran
    cases ran
    have outside : SameLinks vfs (vfs.withBlock newData (List.replicate newSize 0)) :=
      sameLinks_of_nodes rfl rfl rfl
    exact outside.trans sameLinks_withNode

/-- Writing to a file changes no link. -/
theorem sameLinks_write {newData count : Nat} {fd n : Int} {buf : Nat → UInt8}
    (ran : vfsWrite newData fd buf count vfs = .ok (n, next)) : SameLinks vfs next := by
  unfold vfsWrite at ran
  cases found : vfs.file? fd with
  | none =>
    rw [found] at ran
    cases ran
    exact sameLinks_of_nodes rfl rfl rfl
  | some file =>
    rw [found] at ran
    obtain ⟨⟨m, middle⟩, stored, ran⟩ := bind_eq_ok.mp ran
    cases ran
    refine SameLinks.trans ?_ (sameLinks_advance fd file n)
    -- Nothing is written, nothing could be, or the bytes go to a new block or to the old one.
    unfold vfsDefaultWrite at stored
    by_cases none : count = 0
    · rw [if_pos none] at stored
      cases stored
      exact sameLinks_of_nodes rfl rfl rfl
    simp only [if_neg none] at stored
    by_cases longer : (vfs.nodes file.node).size < add64 file.offset count
    · rw [if_pos longer] at stored
      by_cases null : newData = 0
      · rw [if_pos null] at stored
        cases stored
        exact sameLinks_of_nodes rfl rfl rfl
      · rw [if_neg null] at stored
        obtain ⟨larger, grown, stored⟩ := bind_eq_ok.mp stored
        exact (sameLinks_grow grown).trans (sameLinks_store stored)
    · rw [if_neg longer] at stored
      exact sameLinks_store stored

/-- The shape of the tree depends on the links and names only. -/
theorem Shaped.sameLinks {level : Nat → Nat} (shaped : Shaped level vfs) (holds : VfsHolds next)
    (same : SameLinks vfs next) : Shaped level next := by
  refine ⟨holds, same.root ▸ shaped.root, fun node among => ?_⟩
  rw [same.linked] at among ⊢
  -- Every family is made of links and names.
  obtain ⟨kids, family, inTree⟩ := shaped.families node among
  exact ⟨kids, family.frame (same.children node) (same.count node) (fun kid _ => same.sibling kid)
    (fun kid _ => same.parent kid) (fun kid _ => same.name kid), inTree⟩

/-- Reading from a file changes no link. -/
theorem sameLinks_read {count : Nat} {fd n : Int} {copied : List UInt8}
    (ran : vfsRead fd count vfs = .ok (n, copied, next)) : SameLinks vfs next := by
  -- Reading moves the offset of a slot only.
  unfold vfsRead at ran
  cases found : vfs.file? fd with
  | none =>
    rw [found] at ran
    cases ran
    exact sameLinks_of_nodes rfl rfl rfl
  | some file =>
    rw [found] at ran
    obtain ⟨⟨m, slice⟩, -, ran⟩ := bind_eq_ok.mp ran
    cases ran
    exact sameLinks_advance ..

/-- A seek changes no link. -/
theorem sameLinks_lseek {offset : Nat} {fd n whence : Int}
    (ran : vfsLseek fd offset whence vfs = (n, next)) : SameLinks vfs next := by
  -- Whatever the branch, at most the table of open files is stored.
  unfold vfsLseek at ran
  split at ran
  · cases ran
    exact sameLinks_of_nodes rfl rfl rfl
  · dsimp only at ran
    split at ran
    · cases ran
      exact sameLinks_of_nodes rfl rfl rfl
    · split at ran
      · cases ran
        exact sameLinks_of_nodes rfl rfl rfl
      · cases ran
        exact sameLinks_of_nodes rfl rfl rfl

/-- Closing a file changes no link. -/
theorem sameLinks_close {fd n : Int} (ran : vfsClose fd vfs = (n, next)) : SameLinks vfs next := by
  -- Closing changes the table only.
  unfold vfsClose at ran
  split at ran
  · cases ran
    exact sameLinks_of_nodes rfl rfl rfl
  · cases ran
    exact sameLinks_of_nodes rfl rfl rfl

/-- Every tree that is reached has the right shape. -/
theorem VfsReached.shaped (reached : VfsReached vfs) : ∃ level, Shaped level vfs := by
  induction reached with
  | mounted real memory => exact ⟨_, vfsInit_shaped real (mountRoot_empty _ memory)⟩
  | step before step ih =>
    have after := (VfsReached.step before step).holds
    obtain ⟨level, shaped⟩ := ih
    cases step with
    | created made => exact Shaped.call ⟨level, shaped⟩ (.created made)
    | opened fresh ran => exact Shaped.call ⟨level, shaped⟩ (.opened fresh ran)
    -- The other calls leave the links alone.
    | read word ran => exact ⟨level, shaped.sameLinks after (sameLinks_read ran)⟩
    | write word fresh ran => exact ⟨level, shaped.sameLinks after (sameLinks_write ran)⟩
    | seek word ran => exact ⟨level, shaped.sameLinks after (sameLinks_lseek ran)⟩
    | close ran => exact ⟨level, shaped.sameLinks after (sameLinks_close ran)⟩

end

/-- A child of a node that has exactly this name. -/
def Vfs.HasChild (vfs : Vfs) (dir : Nat) (name : List UInt8) (kid : Nat) : Prop :=
  ∃ kids, Siblings vfs (vfs.nodes dir).children kids ∧ kid ∈ kids ∧ (vfs.nodes kid).name = name

/-- Names lead from one node to another, through children that have exactly these names. -/
inductive Leads (vfs : Vfs) : Nat → List (List UInt8) → Nat → Prop where
  | here (node : Nat) : Leads vfs node [] node
  | down {dir kid last : Nat} {name : List UInt8} {names : List (List UInt8)}
      (child : vfs.HasChild dir name kid) (rest : Leads vfs kid names last) :
      Leads vfs dir (name :: names) last

section

variable {vfs : Vfs} {level : Nat → Nat} {dir kid node : Nat} {name : List UInt8}
  {names others : List (List UInt8)}

/-- In a tree, the child with a name is the one that the walk along the children finds. -/
theorem Shaped.hasChild_iff (shaped : Shaped level vfs) (inside : dir ∈ vfs.linked) :
    vfs.HasChild dir name kid ↔ kid ≠ 0 ∧ vfs.Child dir name kid := by
  obtain ⟨kids, family, inTree⟩ := shaped.families dir inside
  rw [child_iff family.siblings]
  constructor
  · rintro ⟨listed, siblings, among, named⟩
    rw [siblings.unique family.siblings] at among
    -- A child is a node, and no node is at the null address.
    refine ⟨fun null => family.siblings.solid (null ▸ among), ?_⟩
    cases found : kids.find? fun kid => name = (vfs.nodes kid).name with
    | none =>
      have differs := List.find?_eq_none.mp found kid among
      exact absurd (by simpa using named.symm) differs
    | some first =>
      -- The first child with the name is the only one.
      have same : name = (vfs.nodes first).name := by simpa using List.find?_some found
      -- Two children of one node never have the same name.
      by_contra other
      have differ : first ≠ kid := other
      have symmetric : Std.Symm fun one two => (vfs.nodes one).name ≠ (vfs.nodes two).name :=
        ⟨fun _ _ apart => apart.symm⟩
      have apart := family.apart.forall (List.mem_of_find?_eq_some found) among differ
      exact apart (same.symm.trans named.symm)
  · rintro ⟨real, first⟩
    cases found : kids.find? fun kid => name = (vfs.nodes kid).name with
    | none =>
      rw [found] at first
      exact absurd first.symm real
    | some other =>
      rw [found] at first
      obtain rfl : other = kid := first
      have same : name = (vfs.nodes other).name := by simpa using List.find?_some found
      exact ⟨kids, family.siblings, List.mem_of_find?_eq_some found, same.symm⟩

/-- A child is a node of the tree one level down, with its own name and its parent. -/
theorem Shaped.child_of_hasChild (shaped : Shaped level vfs) (inside : dir ∈ vfs.linked)
    (child : vfs.HasChild dir name kid) :
    kid ∈ vfs.linked ∧ level kid = level dir + 1 ∧ (vfs.nodes kid).parent = dir ∧
      (vfs.nodes kid).name = name ∧ Component name := by
  obtain ⟨listed, siblings, among, named⟩ := child
  -- The child that the lookup finds is one of the family of its parent.
  obtain ⟨kids, family, inTree⟩ := shaped.families dir inside
  rw [siblings.unique family.siblings] at among
  refine ⟨(inTree kid among).1, (inTree kid among).2, family.parent kid among, named, ?_⟩
  rw [← named]
  exact family.named kid among

/-- Names lead to a node of the tree, as many levels down as there are names, and each can be a name. -/
theorem Shaped.leads (shaped : Shaped level vfs) (inside : dir ∈ vfs.linked)
    (leads : Leads vfs dir names node) :
    node ∈ vfs.linked ∧ level node = level dir + names.length ∧ ∀ name ∈ names, Component name := by
  induction leads with
  | here => exact ⟨inside, rfl, by simp⟩
  | down child rest ih =>
    -- Each name leads one level down.
    obtain ⟨inTree, deeper, -, -, named⟩ := shaped.child_of_hasChild inside child
    obtain ⟨last, levels, all⟩ := ih inTree
    refine ⟨last, ?_, ?_⟩
    · rw [levels, deeper, List.length_cons]
      omega
    · intro other among
      rcases List.mem_cons.mp among with rfl | among
      · exact named
      · exact all other among

/-- The last of several names leads from the node that the others lead to. -/
theorem leads_append : Leads vfs dir (names ++ [name]) node ↔
    ∃ parent, Leads vfs dir names parent ∧ vfs.HasChild parent name node := by
  -- The first names are followed as before; only the last one is split off.
  induction names generalizing dir with
  | nil =>
    constructor
    · intro leads
      cases leads with
      | down child rest =>
        cases rest
        exact ⟨dir, .here dir, child⟩
    · rintro ⟨parent, leads, child⟩
      cases leads
      exact .down child (.here node)
  | cons first names ih =>
    constructor
    · intro leads
      cases leads with
      | down child rest =>
        obtain ⟨parent, leads, last⟩ := ih.mp rest
        exact ⟨parent, .down child leads, last⟩
    · rintro ⟨parent, leads, last⟩
      cases leads with
      | down child rest => exact .down child (ih.mpr ⟨parent, rest, last⟩)

/-- Only one list of names leads from the root to a node. -/
theorem Shaped.leads_unique (shaped : Shaped level vfs) (one : Leads vfs vfs.rootNode names node)
    (two : Leads vfs vfs.rootNode others node) : names = others := by
  have root := shaped.holds.root
  -- Both lists are as long as the node is deep.
  have lengths : names.length = others.length := by
    have first := (shaped.leads root one).2.1
    have second := (shaped.leads root two).2.1
    omega
  -- From the node upwards, every parent and every name is determined.
  induction names using List.reverseRecOn generalizing others node with
  | nil => exact (List.eq_nil_of_length_eq_zero lengths.symm).symm
  | append_singleton names name ih =>
    rcases List.eq_nil_or_concat others with rfl | ⟨front, last, rfl⟩
    · simp at lengths
    · rw [List.concat_eq_append] at two lengths ⊢
      obtain ⟨parent, above, child⟩ := leads_append.mp one
      obtain ⟨other, aboveToo, childToo⟩ := leads_append.mp two
      obtain ⟨-, -, parentIs, named, -⟩ := shaped.child_of_hasChild (shaped.leads root above).1 child
      obtain ⟨-, -, otherIs, namedToo, -⟩ := shaped.child_of_hasChild (shaped.leads root aboveToo).1 childToo
      -- A node has one parent and one name.
      obtain rfl : parent = other := parentIs.symm.trans otherIs
      obtain rfl : name = last := named.symm.trans namedToo
      have shorter : names.length = front.length := by
        simp only [List.length_append, List.length_singleton] at lengths
        omega
      rw [ih above aboveToo shorter]

/-- The walk down the tree ends at the node that the pieces of the path lead to, or at none. -/
theorem Shaped.lookupLoop_leads (shaped : Shaped level vfs) (path : List UInt8) {current : Nat}
    (inside : current ∈ vfs.linked)
    (walked : Settles (fun fuel => lookupLoop vfs fuel path current) node) :
    (node ≠ 0 → Leads vfs current (pathPieces path) node) ∧
      (node = 0 → ∀ other, ¬ Leads vfs current (pathPieces path) other) := by
  have holds := shaped.holds
  -- The path gets shorter with each turn, by one piece or by a slash.
  induction path using path_induction generalizing current with
  | nil =>
    cases walked.unique lookupLoop_nil
    refine ⟨fun _ => .here _, fun null => absurd inside ?_⟩
    rw [null]
    exact holds.solid
  | turn byte path component rest taken ih =>
    by_cases empty : component = []
    · obtain ⟨last, goesOn, -⟩ := holds.lookupLoop (skipSlash rest) inside
      cases walked.unique (lookupLoop_empty taken empty goesOn)
      rw [pathPieces_empty taken empty]
      exact ih inside goesOn
    · rw [pathPieces_turn taken empty]
      obtain ⟨child, found, below⟩ := holds.findChild inside component
      by_cases missing : child = 0
      · -- No child has the name, so no names that start with it lead anywhere.
        rw [missing] at found
        cases walked.unique (lookupLoop_missing taken empty found)
        refine ⟨fun real => absurd rfl real, fun _ other leads => ?_⟩
        cases leads with
        | down kid rest =>
          obtain ⟨real, again⟩ := (shaped.hasChild_iff inside).mp kid
          exact real (again.unique found)
      · have inTree := below.resolve_left missing
        obtain ⟨last, goesOn, -⟩ := holds.lookupLoop (skipSlash rest) inTree
        cases walked.unique (lookupLoop_found taken empty found missing goesOn)
        obtain ⟨leads, nowhere⟩ := ih inTree goesOn
        refine ⟨fun real => .down ((shaped.hasChild_iff inside).mpr ⟨missing, found⟩) (leads real), ?_⟩
        intro null other way
        cases way with
        | down kid rest =>
          obtain ⟨-, again⟩ := (shaped.hasChild_iff inside).mp kid
          rw [again.unique found] at rest
          exact nowhere null other rest

/-- A path leads where its pieces lead, or nowhere. -/
theorem Shaped.lookup_leads (shaped : Shaped level vfs) {path : List UInt8}
    (looked : Settles (fun fuel => vfsLookup fuel path vfs) node) :
    (node ≠ 0 → Leads vfs vfs.rootNode (pathPieces path) node) ∧
      (node = 0 → ∀ other, ¬ Leads vfs vfs.rootNode (pathPieces path) other) := by
  have holds := shaped.holds
  -- Looking a path up is the walk down from the root.
  obtain ⟨last, walked, -⟩ := holds.lookupLoop (skipSlash path) holds.root
  cases looked.unique (vfsLookup_of_walk holds walked)
  have leads := shaped.lookupLoop_leads (skipSlash path) holds.root walked
  rwa [pathPieces_skipSlash] at leads

end

end MiraOS

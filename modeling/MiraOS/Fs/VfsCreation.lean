import MiraOS.Fs.VfsPaths

/-! What a creation makes of the nodes that a path lacks, and which paths resolve by their components. -/

namespace MiraOS

open Machine

/-- How many of the nodes that names lead to are missing, from a node on. -/
def Lacks (vfs : Vfs) : List (List UInt8) → Nat → Nat → Prop
  | [], _, count => count = 0
  | name :: names, dir, count => ∃ kid, vfs.Child dir name kid ∧
    -- Below a node that is missing, all others are missing too.
    if kid = 0 then count = names.length + 1 else Lacks vfs names kid count

/-- The path ends in two slashes at least. -/
def DoubleSlash (path : List UInt8) : Prop := [0x2F, 0x2F] <:+ path

section

variable {path component rest : List UInt8}

/-- A path of slashes only has no pieces, and only such a path has none. -/
theorem pathPieces_eq_nil : pathPieces path = [] ↔ ∀ byte ∈ path, byte = 0x2F := by
  induction path with
  | nil => simp
  | cons byte path ih =>
    -- A slash in front adds no piece.
    by_cases slash : byte = 0x2F
    · rw [slash, pathPieces, pieces_sep, ← pathPieces, ih]
      simp
    · -- A byte that is no slash belongs to the first piece.
      constructor
      · intro none
        generalize taken : takeComponent vfsNameMax (byte :: path) = parts
        obtain ⟨component, rest⟩ := parts
        -- The buffer has room for one byte at least.
        have filled : component ≠ [] := by
          have limit : vfsNameMax = 62 + 1 := rfl
          rw [limit, takeComponent, if_neg slash] at taken
          intro empty
          rw [empty] at taken
          cases taken
        rw [pathPieces_turn taken filled] at none
        cases none
      · intro all
        exact absurd (all byte List.mem_cons_self) slash

/-- A walk along slashes only ends where it starts. -/
theorem lookupLoop_slashes {vfs : Vfs} {current : Nat} (none : pathPieces path = []) :
    Settles (fun fuel => lookupLoop vfs fuel path current) current := by
  have slashes := pathPieces_eq_nil.mp none
  induction path with
  | nil => exact lookupLoop_nil
  | cons byte path ih =>
    obtain rfl := slashes byte List.mem_cons_self
    -- The slash ends an empty component, and it is passed over.
    have taken : takeComponent vfsNameMax (0x2F :: path) = ([], 0x2F :: path) := by
      simp [vfsNameMax, takeComponent]
    rw [pathPieces_empty taken rfl] at none
    exact lookupLoop_empty taken rfl (ih none fun byte among => slashes byte (List.mem_cons_of_mem _ among))

/-- What is in front of a part with another byte does not matter for the slashes at the end. -/
theorem doubleSlash_append {front tail : List UInt8} (some : pathPieces tail ≠ []) :
    DoubleSlash (front ++ tail) ↔ DoubleSlash tail := by
  constructor
  · intro ends
    -- One of the two ends is an end of the other.
    rcases List.suffix_or_suffix_of_suffix ends (List.suffix_append front tail) with inside | outside
    · exact inside
    · -- The tail would consist of slashes only.
      refine absurd (pathPieces_eq_nil.mpr fun byte among => ?_) some
      simpa using outside.subset among
  · intro ends
    exact ends.trans (List.suffix_append front tail)

/-- A path is what a turn takes of it, and what it goes on with. -/
theorem turn_append (taken : takeComponent vfsNameMax path = (component, rest)) :
    ∃ slash, path = (component ++ slash) ++ skipSlash rest ∧ rest = slash ++ skipSlash rest ∧
      (slash = [] ∨ slash = [0x2F]) := by
  have split := (takeComponent_split vfsNameMax path).1
  rw [taken] at split
  -- The rest starts with a slash that is passed over, or it does not.
  cases rest with
  | nil => exact ⟨[], by simpa [skipSlash] using split, rfl, .inl rfl⟩
  | cons byte rest =>
    by_cases slash : byte = 0x2F
    · refine ⟨[0x2F], ?_, ?_, .inr rfl⟩
      · rw [split, skipSlash, if_pos slash, slash]
        simp
      · rw [skipSlash, if_pos slash, slash]
        rfl
    · refine ⟨[], ?_, ?_, .inl rfl⟩
      · rw [split, skipSlash, if_neg slash]
        simp
      · rw [skipSlash, if_neg slash]
        rfl

/-- The slashes at the end of a path are those of the part that a turn goes on with. -/
theorem doubleSlash_turn (taken : takeComponent vfsNameMax path = (component, rest))
    (some : pathPieces (skipSlash rest) ≠ []) : DoubleSlash path ↔ DoubleSlash (skipSlash rest) := by
  -- A turn takes off one component, so two slashes in a row stay in what is left.
  obtain ⟨slash, whole, -⟩ := turn_append taken
  rw [whole]
  exact doubleSlash_append some

/-- A path that ends with a component, or with one slash behind it, does not end in two. -/
theorem not_doubleSlash_last (taken : takeComponent vfsNameMax path = (component, rest))
    (filled : component ≠ []) (last : skipSlash rest = []) : ¬ DoubleSlash path := by
  obtain ⟨slash, whole, -, either⟩ := turn_append taken
  have plain := (takeComponent_component taken filled).plain
  rw [last, List.append_nil] at whole
  rintro ⟨front, ends⟩
  rw [whole] at ends
  rcases either with rfl | rfl
  · rw [List.append_nil] at ends
    exact plain (ends ▸ by simp)
  · -- Without the last slash, the component would end in one.
    have shorter : front ++ [0x2F] = component :=
      List.append_cancel_right (show (front ++ [0x2F]) ++ [0x2F] = component ++ [0x2F] by simpa using ends)
    exact plain (shorter ▸ by simp)

/-- A path with nothing but slashes behind its last component ends in two. -/
theorem doubleSlash_last (taken : takeComponent vfsNameMax path = (component, rest))
    (none : pathPieces (skipSlash rest) = []) (more : skipSlash rest ≠ []) : DoubleSlash path := by
  obtain ⟨slash, whole, split, either⟩ := turn_append taken
  have slashes := pathPieces_eq_nil.mp none
  rcases either with rfl | rfl
  · -- Where no slash was passed over, the rest starts with another byte.
    cases rest with
    | nil => exact absurd rfl more
    | cons byte rest =>
      have kept : skipSlash (byte :: rest) = byte :: rest := split.symm
      rw [kept] at slashes
      have here := slashes byte List.mem_cons_self
      rw [skipSlash, if_pos here] at kept
      exact absurd (congrArg List.length kept) (by simp)
  · have all : skipSlash rest = List.replicate (skipSlash rest).length 0x2F :=
      List.eq_replicate_of_mem slashes
    obtain ⟨count, length⟩ : ∃ count, (skipSlash rest).length = count + 1 :=
      ⟨(skipSlash rest).length - 1, by have := List.length_pos_iff.mpr more; omega⟩
    rw [length, List.replicate_succ'] at all
    -- It does not matter at which end of them the passed one stands.
    have front : [0x2F] ++ List.replicate count 0x2F = List.replicate count (0x2F : UInt8) ++ [0x2F] := by
      rw [← List.replicate_succ', List.replicate_succ]
      rfl
    refine ⟨component ++ List.replicate count 0x2F, ?_⟩
    rw [whole, all, List.append_assoc, List.append_assoc, ← List.append_assoc [0x2F], front]
    simp

end

section

variable {vfs : Vfs} {dir count : Nat} {names : List (List UInt8)}

/-- Some number of nodes is missing. -/
theorem VfsHolds.lacks (holds : VfsHolds vfs) (inside : dir ∈ vfs.linked) (names : List (List UInt8)) :
    ∃ count, Lacks vfs names dir count := by
  induction names generalizing dir with
  | nil => exact ⟨0, rfl⟩
  | cons name names ih =>
    obtain ⟨kid, found, below⟩ := holds.findChild inside name
    -- Below a node that is missing everything is, and below another one the count goes on.
    by_cases missing : kid = 0
    · exact ⟨names.length + 1, kid, found, by rw [if_pos missing]⟩
    · obtain ⟨count, lacks⟩ := ih (below.resolve_left missing)
      exact ⟨count, kid, found, by rwa [if_neg missing]⟩

/-- Where something is missing, there are names. -/
theorem Lacks.some_names (lacks : Lacks vfs names dir count) (positive : 0 < count) : names ≠ [] := by
  rintro rfl
  -- Nothing is missing of an empty path.
  have zero : count = 0 := lacks
  omega

/-- From a node without children on, everything is missing. -/
theorem lacks_childless (childless : (vfs.nodes dir).children = 0) :
    Lacks vfs names dir names.length := by
  cases names with
  | nil => rfl
  | cons name names =>
    -- The walk along no children finds none.
    have missing : vfs.Child dir name 0 := .now fun fuel => by
      rw [vfsFindChild, childless]
      cases fuel <;> rfl
    exact ⟨0, missing, by simp⟩

/-- Nothing is missing exactly when the names lead to a node. -/
theorem Shaped.lacks_zero_iff {level : Nat → Nat} (shaped : Shaped level vfs) (inside : dir ∈ vfs.linked)
    (lacks : Lacks vfs names dir count) : count = 0 ↔ ∃ node, Leads vfs dir names node := by
  induction names generalizing dir with
  | nil => exact ⟨fun _ => ⟨dir, .here dir⟩, fun _ => lacks⟩
  | cons name names ih =>
    obtain ⟨kid, found, rest⟩ := lacks
    -- A missing child ends the way, so that nothing leads further.
    by_cases missing : kid = 0
    · rw [if_pos missing] at rest
      rw [missing] at found
      refine ⟨fun none => by omega, ?_⟩
      rintro ⟨node, leads⟩
      cases leads with
      | down child below =>
        obtain ⟨real, again⟩ := (shaped.hasChild_iff inside).mp child
        exact absurd (again.unique found) real
    · rw [if_neg missing] at rest
      have child := (shaped.hasChild_iff inside).mpr ⟨missing, found⟩
      rw [ih (shaped.child_of_hasChild inside child).1 rest]
      constructor
      · rintro ⟨node, leads⟩
        exact ⟨node, .down child leads⟩
      · rintro ⟨node, leads⟩
        cases leads with
        | down other below =>
          obtain ⟨-, again⟩ := (shaped.hasChild_iff inside).mp other
          rw [again.unique found] at below
          exact ⟨node, below⟩

end

/--
What a creation without bytes makes of the nodes that are missing.

It takes one answer of the heap for each of them, and stops at the first that is null.
-/
structure Made (vfs : Vfs) (answers : Nat → Nat) (requests count : Nat) (path : List UInt8) (node : Nat)
    (next : Vfs) : Prop where
  there : count = 0 → next = vfs ∧ node ≠ 0
  refused : 0 < count → answers requests = 0 → next = vfs
  -- The first node that was missing is in the tree then, whether or not the others are.
  linked : 0 < count → answers requests ≠ 0 → ∃ dir ∈ vfs.linked, ∃ name, vfs.Child dir name 0 ∧
    next.Child dir name (answers requests)
  null : (∃ i, i < count ∧ answers (requests + i) = 0) → node = 0
  -- The last node is a file, unless slashes follow it that make it look like a directory.
  done : 0 < count → (∀ i, i < count → answers (requests + i) ≠ 0) → node ≠ 0 ∧
    ((next.nodes node).type = .file ∧ ¬ DoubleSlash path ∨
      (next.nodes node).type = .directory ∧ DoubleSlash path)

section

variable {vfs : Vfs} {answers : Nat → Nat} {data : Nat → UInt8} {requests : Nat}

/-- Only the slashes at its end matter of a path. -/
theorem Made.same {next : Vfs} {count node : Nat} {path rest : List UInt8}
    (made : Made vfs answers requests count rest node next)
    (ends : 0 < count → (DoubleSlash path ↔ DoubleSlash rest)) :
    Made vfs answers requests count path node next := by
  refine ⟨made.there, made.refused, made.linked, made.null, fun positive all => ?_⟩
  rw [ends positive]
  exact made.done positive all

/-- Where nothing is missing, nothing is made. -/
theorem made_nothing {node : Nat} (path : List UInt8) (real : node ≠ 0) :
    Made vfs answers requests 0 path node vfs := by
  -- With no component made there is nothing to find, and no answer that could have failed.
  refine ⟨fun _ => ⟨rfl, real⟩, fun positive => ?_, fun positive => ?_, ?_, fun positive => ?_⟩
  · omega
  · omega
  · rintro ⟨i, small, -⟩
    omega
  · omega

/-- Where the heap refuses the first node, none is made. -/
theorem made_refused {count : Nat} (path : List UInt8) (positive : 0 < count) (full : answers requests = 0) :
    Made vfs answers requests count path 0 vfs := by
  refine ⟨fun zero => by omega, fun _ _ => rfl, fun _ real => absurd full real, fun _ => rfl, fun _ all => ?_⟩
  exact absurd full (all 0 positive)

/-- The last component becomes a file, and no request more is made. -/
theorem VfsHolds.made_file {current : Nat} {component path : List UInt8} (holds : VfsHolds vfs)
    (inside : current ∈ vfs.linked) (new : answers requests ∉ vfs.linked) (real : answers requests ≠ 0)
    (missing : vfs.Child current component 0) (single : ¬ DoubleSlash path) :
    Made vfs answers requests 1 path (answers requests) (vfsAddChild current (answers requests)
      (vfs.withNode (answers requests) { name := component, type := .file })) := by
  -- The only component is the new file, below the directory where it was missing.
  have here := @added_new vfs current (answers requests) { name := component, type := .file } inside new
  refine ⟨fun zero => by omega, fun _ null => absurd null real,
    fun _ _ => ⟨current, inside, component, missing, holds.added_found inside new real⟩, ?_, ?_⟩
  · rintro ⟨i, small, null⟩
    obtain rfl : i = 0 := by omega
    exact absurd null real
  · intro _ _
    refine ⟨real, .inl ⟨?_, single⟩⟩
    rw [here]

/-- One more directory in front of what a creation makes. -/
theorem Made.later {first next : Vfs} {count node : Nat} {path rest : List UInt8}
    (made : Made first answers (requests + 1) count rest node next) (real : answers requests ≠ 0)
    (linked : ∃ dir ∈ vfs.linked, ∃ name, vfs.Child dir name 0 ∧ next.Child dir name (answers requests))
    (none : count = 0 → node ≠ 0 → (next.nodes node).type = .directory ∧ DoubleSlash path)
    (same : 0 < count → (DoubleSlash path ↔ DoubleSlash rest)) :
    Made vfs answers requests (count + 1) path node next := by
  -- The requests of the rest are counted from the second one on.
  have shift : ∀ i, requests + 1 + i = requests + (i + 1) := fun i => by omega
  refine ⟨fun zero => by omega, fun _ null => absurd null real, fun _ _ => linked, ?_, ?_⟩
  · rintro ⟨i, small, null⟩
    cases i with
    | zero => exact absurd null real
    | succ i => exact made.null ⟨i, by omega, by rw [shift]; exact null⟩
  · intro _ all
    rcases Nat.eq_zero_or_pos count with zero | positive
    · -- No other node was missing, so the directory itself is the node.
      obtain ⟨-, some⟩ := made.there zero
      exact ⟨some, .inr (none zero some)⟩
    · rw [same positive]
      exact made.done positive fun i small => by rw [shift]; exact all (i + 1) (by omega)

/--
The walk that makes missing nodes without bytes.

The same path leads to what it returns afterwards, be that a node or none.
-/
theorem createLoop_made {current count : Nat} (holds : VfsHolds vfs) (path : List UInt8)
    (inside : current ∈ vfs.linked) (fresh : FreshFrom vfs answers requests)
    (lacks : Lacks vfs (pathPieces path) current count) :
    ∃ node next, Settles (fun fuel => createLoop answers data 0 fuel requests path current vfs)
      (node, next) ∧ Growth anyNode 0 vfs next ∧
      Settles (fun fuel => lookupLoop next fuel path current) node ∧
      Made vfs answers requests count path node next := by
  -- The path gets shorter with each turn, while the tree may grow.
  induction path using path_induction generalizing current vfs requests count with
  | nil =>
    have zero : count = 0 := by
      rw [pathPieces_nil] at lacks
      exact lacks
    have real : current ≠ 0 := fun null => holds.solid (null ▸ inside)
    refine ⟨current, vfs, .now fun fuel => ?_, .refl, lookupLoop_nil, zero ▸ made_nothing [] real⟩
    cases fuel with
    | zero => rfl
    | succ fuel => rfl
  | turn byte path component rest taken ih =>
    -- A turn that takes off a slash goes on in the same directory.
    by_cases empty : component = []
    · rw [pathPieces_empty taken empty] at lacks
      obtain ⟨node, next, settles, growth, looked, made⟩ :=
        ih holds inside fresh lacks
      exact ⟨node, next, .later (fun fuel => (createLoop_turn taken fuel).trans (if_pos empty)) settles,
        growth, lookupLoop_empty taken empty looked,
        made.same fun positive => doubleSlash_turn taken (lacks.some_names positive)⟩
    have turn := fun fuel => (@createLoop_turn vfs answers data 0 requests _ _ _ _ current taken
      fuel).trans (if_neg empty)
    rw [pathPieces_turn taken empty] at lacks
    -- Something is missing below a child that is there, or the child itself is.
    obtain ⟨child, found, lacks⟩ := lacks
    by_cases there : child ≠ 0
    · -- The component is there already, and it stays there.
      rw [if_neg there] at lacks
      obtain ⟨other, again, below⟩ := holds.findChild inside component
      obtain rfl : other = child := again.unique found
      obtain ⟨node, next, settles, growth, looked, made⟩ := ih holds
        (below.resolve_left there) fresh lacks
      have still := (growth.grown holds).2.child current inside component other there found
      refine ⟨node, next, .later turn (found.bind ?_), growth, lookupLoop_found taken empty still there looked,
        made.same fun positive => doubleSlash_turn taken (lacks.some_names positive)⟩
      simp only [if_pos there]
      exact settles
    -- From here on every component is missing.
    obtain rfl : child = 0 := not_not.mp there
    rw [if_pos rfl] at lacks
    -- Without memory for it, the walk stops and has changed nothing.
    by_cases full : answers requests = 0
    · refine ⟨0, vfs, .later turn (found.bind ?_), .refl, lookupLoop_missing taken empty found,
        made_refused _ (by omega) full⟩
      simp only [if_neg there, if_pos full]
      exact .now fun _ => rfl
    have named := takeComponent_component taken empty
    have new := fresh.nodes requests (Nat.le_refl _)
    by_cases last : skipSlash rest = []
    · rw [last, pathPieces_nil, List.length_nil] at lacks
      have file : NewNode vfs { name := component, type := .file } :=
        ⟨rfl, rfl, Nat.two_pow_pos 64, fun some => absurd rfl some⟩
      refine ⟨answers requests, _, .later turn (found.bind ?_),
        .single (.linked inside trivial new full file rfl (fun _ => rfl) named found), ?_,
        lacks ▸ holds.made_file inside new full found (not_doubleSlash_last taken empty last)⟩
      · simp only [if_neg there, if_neg full, if_pos last]
        exact .now fun _ => rfl
      · refine lookupLoop_found taken empty (holds.added_found inside new full) full ?_
        rw [last]
        exact lookupLoop_nil
    · -- A directory is linked in, and the walk goes on from there.
      obtain ⟨first, -⟩ := @directory_linked vfs answers 0 requests anyNode current component
        (fun _ _ => trivial) inside new full named found trivial (skipSlash rest)
      have here := @added_new vfs current (answers requests) { name := component, type := .directory }
        inside new
      have holdsHere := (first.grown holds).1.holds
      obtain ⟨node, next, settles, growth, looked, made⟩ := ih holdsHere List.mem_cons_self
        (fresh.added inside full) (lacks_childless (by rw [here]))
      have still := (growth.grown holdsHere).2.child current (List.mem_cons_of_mem _ inside) component _ full
        (holds.added_found inside new full)
      refine ⟨node, next, .later turn (found.bind ?_), .head first growth,
        lookupLoop_found taken empty still full looked, ?_⟩
      · simp only [if_neg there, if_neg full, if_neg last]
        exact settles
      · rw [lacks]
        refine made.later full ⟨current, inside, component, found, still⟩ ?_ ?_
        · -- Only slashes follow, and they are what makes the component a directory.
          intro none some
          have slashes := List.eq_nil_of_length_eq_zero none
          obtain rfl := looked.unique (lookupLoop_slashes slashes)
          rw [(made.there none).1, here]
          exact ⟨rfl, doubleSlash_last taken slashes last⟩
        · intro positive
          exact doubleSlash_turn taken (List.ne_nil_of_length_pos positive)

/-- A creation without bytes makes what is missing, and the path leads to what it returns. -/
theorem VfsHolds.create_made {count : Nat} (holds : VfsHolds vfs) (path : List UInt8)
    (fresh : FreshFrom vfs answers 0) (lacks : Lacks vfs (pathPieces path) vfs.rootNode count) :
    ∃ node next, Settles (fun fuel => vfsCreateFile fuel answers path data 0 vfs) (node, next) ∧
      Growth anyNode 0 vfs next ∧ Settles (fun fuel => vfsLookup fuel path next) node ∧
      Made vfs answers 0 count path node next := by
  rw [← pathPieces_skipSlash] at lacks
  obtain ⟨node, next, settles, growth, looked, made⟩ := @createLoop_made _ _ data _ _ _ holds (skipSlash path)
    holds.root fresh lacks
  obtain ⟨grown, kept⟩ := growth.grown holds
  refine ⟨node, next, settles, growth, vfsLookup_of_walk grown.holds (by rwa [kept.root]), made.same ?_⟩
  -- The slash in front is not one of those at the end, as a name follows it.
  intro positive
  have some := lacks.some_names positive
  cases path with
  | nil => exact Iff.rfl
  | cons byte path =>
    by_cases slash : byte = 0x2F
    · rw [skipSlash, if_pos slash] at some ⊢
      exact @doubleSlash_append [byte] path some
    · rw [skipSlash, if_neg slash]

end

/-- Looking a path up ends at the node that its components lead to, or at none where they lead nowhere. -/
def ResolvesExactly (vfs : Vfs) (path : List UInt8) : Prop :=
  ∃ node, Settles (fun fuel => vfsLookup fuel path vfs) node ∧
    (node ≠ 0 → Leads vfs vfs.rootNode (pathComponents path) node) ∧
    (node = 0 → ∀ other, ¬ Leads vfs vfs.rootNode (pathComponents path) other)

/-- Every component of a path fits into the buffer of the walk. -/
def ShortNames (path : List UInt8) : Prop := ∀ name ∈ pathComponents path, name.length ≤ vfsNameMax

section

variable {vfs : Vfs} {path other : List UInt8}

/-- A path of short names is taken by its components. -/
theorem ShortNames.pieces (short : ShortNames path) : pathPieces path = pathComponents path :=
  pieces_of_short short

/-- No node has a name that does not fit into the buffer. -/
theorem Shaped.short_of_leads {level : Nat → Nat} {node : Nat} (shaped : Shaped level vfs)
    (leads : Leads vfs vfs.rootNode (pathComponents path) node) : ShortNames path := by
  -- The components that lead to a node are the names of nodes, which are short.
  obtain ⟨-, -, named⟩ := shaped.leads shaped.holds.root leads
  exact fun name among => (named name among).short

/-- In a tree, a path resolves by its components where these fit, or where its pieces lead nowhere. -/
theorem Shaped.resolvesExactly_iff {level : Nat → Nat} (shaped : Shaped level vfs) :
    ResolvesExactly vfs path ↔
      ShortNames path ∨ ∀ node, ¬ Leads vfs vfs.rootNode (pathPieces path) node := by
  obtain ⟨node, looked, -⟩ := shaped.holds.lookup path
  -- What the code follows are the pieces of the path.
  obtain ⟨leads, nowhere⟩ := shaped.lookup_leads looked
  constructor
  · rintro ⟨again, lookedToo, exactly, -⟩
    cases lookedToo.unique looked
    -- A node that is found has names that fit, so a path with others must not find one.
    by_cases null : node = 0
    · exact .inr (nowhere null)
    · exact .inl (shaped.short_of_leads (exactly null))
  · intro either
    refine ⟨node, looked, ?_⟩
    -- Short components are the pieces; others lead to no node at all.
    by_cases short : ShortNames path
    · rw [← short.pieces]
      exact ⟨leads, nowhere⟩
    · have none := either.resolve_left short
      exact ⟨fun real => absurd (leads real) (none node), fun _ last way => short (shaped.short_of_leads way)⟩

/-- Two paths of short names that lead to the same node have the same components. -/
theorem Shaped.components_unique {level : Nat → Nat} {node : Nat} (shaped : Shaped level vfs)
    (short : ShortNames path) (shortToo : ShortNames other) (real : node ≠ 0)
    (looked : Settles (fun fuel => vfsLookup fuel path vfs) node)
    (lookedToo : Settles (fun fuel => vfsLookup fuel other vfs) node) :
    pathComponents path = pathComponents other := by
  -- Both paths lead to the node by their components.
  have one := (shaped.lookup_leads looked).1 real
  have two := (shaped.lookup_leads lookedToo).1 real
  rw [short.pieces] at one
  rw [shortToo.pieces] at two
  exact shaped.leads_unique one two

/-- Every path leads to a node of some tree that is reached. -/
theorem exists_reached_lookup (path : List UInt8) : ∃ vfs node, VfsReached vfs ∧ node ≠ 0 ∧
    Settles (fun fuel => vfsLookup fuel path vfs) node := by
  have holds := ramfsVfs_reached.holds
  obtain ⟨count, lacks⟩ := holds.lacks holds.root (pathPieces path)
  -- The file is made with memory for every node that is missing.
  obtain ⟨node, next, created, -, looked, made⟩ := @VfsHolds.create_made _ _ (fun _ => 0) _ holds path
    ramfsVfs_fresh lacks
  refine ⟨next, node, .step ramfsVfs_reached (.created (.made ramfsVfs_fresh (by decide) created)), ?_, looked⟩
  rcases Nat.eq_zero_or_pos count with none | positive
  · exact (made.there none).2
  · exact (made.done positive fun i _ => by simp [fileHeap]).1

end

/--
Which paths resolve by their components.

In every tree that is reached, a path does so exactly when its components fit into the buffer of the walk, or
when the tree has no node at the pieces that the buffer cuts them into. In all such trees it does so exactly
when its components fit, and two paths of which all components fit lead to the same node only if they have the
same components.
-/
theorem path_resolution_iff (path : List UInt8) :
    (∀ vfs, VfsReached vfs → (ResolvesExactly vfs path ↔
      ShortNames path ∨ ∀ node, ¬ Leads vfs vfs.rootNode (pathPieces path) node)) ∧
    ((∀ vfs, VfsReached vfs → ResolvesExactly vfs path) ↔ ShortNames path) ∧
    (ShortNames path → ∀ vfs, VfsReached vfs → ∀ other node, ShortNames other → node ≠ 0 →
      Settles (fun fuel => vfsLookup fuel path vfs) node →
      Settles (fun fuel => vfsLookup fuel other vfs) node → pathComponents path = pathComponents other) := by
  refine ⟨?_, ⟨?_, ?_⟩, ?_⟩
  · intro vfs reached
    obtain ⟨level, shaped⟩ := reached.shaped
    exact shaped.resolvesExactly_iff
  · intro exactly
    -- In a tree where the path leads somewhere, only short names can be what leads there.
    obtain ⟨vfs, node, reached, real, looked⟩ := exists_reached_lookup path
    obtain ⟨level, shaped⟩ := reached.shaped
    obtain ⟨last, lookedToo, leads, -⟩ := exactly vfs reached
    cases lookedToo.unique looked
    exact shaped.short_of_leads (leads real)
  · intro short vfs reached
    obtain ⟨level, shaped⟩ := reached.shaped
    exact shaped.resolvesExactly_iff.mpr (.inl short)
  · intro short vfs reached other node shortToo real looked lookedToo
    obtain ⟨level, shaped⟩ := reached.shaped
    exact shaped.components_unique short shortToo real looked lookedToo

/-- The path of the second file resolves by its component, however many slashes there are. -/
theorem version_resolves : ShortNames (asciiBytes "/version") ∧ ResolvesExactly ramfsVfs (asciiBytes "/version") ∧
    pathComponents (asciiBytes "/version") = pathComponents (asciiBytes "//version/") := by
  -- The one component has seven letters.
  have short : ShortNames (asciiBytes "/version") := by
    unfold ShortNames
    decide
  have shortToo : ShortNames (asciiBytes "//version/") := by
    unfold ShortNames
    decide
  have looked : ∀ fuel, vfsLookup (fuel + 4) (asciiBytes "/version") ramfsVfs = .ok 48 := fun _ => rfl
  have lookedToo : ∀ fuel, vfsLookup (fuel + 4) (asciiBytes "//version/") ramfsVfs = .ok 48 := fun _ => rfl
  obtain ⟨here, everywhere, unique⟩ := path_resolution_iff (asciiBytes "/version")
  exact ⟨short, everywhere.mpr short ramfsVfs ramfsVfs_reached, unique short ramfsVfs ramfsVfs_reached _ 48
    shortToo (by decide) (.after 4 looked) (.after 4 lookedToo)⟩

/-- A component of 64 bytes. -/
def longPath : List UInt8 := List.replicate 64 0x61

/-- The same bytes with a slash in front of the last one. -/
def splitPath : List UInt8 := List.replicate 63 0x61 ++ [0x2F, 0x61]

/-- The first files, and a file in a directory, both with names that fit. -/
def splitVfs : Vfs :=
  ((vfsCreateFile 8 (fileHeap 96) splitPath (fun _ => 0) 0 ramfsVfs).toOption.getD (0, bareVfs)).2

/-- A component of 64 bytes leads to the file in the directory, whose components are others. -/
theorem long_component_split : VfsReached splitVfs ∧
    Settles (fun fuel => vfsLookup fuel longPath splitVfs) 112 ∧
    Settles (fun fuel => vfsLookup fuel splitPath splitVfs) 112 ∧
    pathComponents longPath ≠ pathComponents splitPath ∧ ¬ ResolvesExactly splitVfs longPath := by
  -- A path with the component in two pieces makes a directory of the first one, and both paths lead to the
  -- file.
  have made : ∀ fuel, vfsCreateFile (fuel + 8) (fileHeap 96) splitPath (fun _ => 0) 0 ramfsVfs =
      .ok (112, splitVfs) := fun _ => rfl
  have reached : VfsReached splitVfs :=
    .step ramfsVfs_reached (.created (.made ramfsVfs_fresh (by decide) (.after 8 made)))
  have looked : ∀ fuel, vfsLookup (fuel + 8) longPath splitVfs = .ok 112 := fun _ => rfl
  have lookedToo : ∀ fuel, vfsLookup (fuel + 8) splitPath splitVfs = .ok 112 := fun _ => rfl
  refine ⟨reached, .after 8 looked, .after 8 lookedToo, by decide, ?_⟩
  rintro ⟨node, again, leads, -⟩
  cases again.unique (.after 8 looked)
  -- The components of the long path are not those of a path in the tree, since one is too long for a name.
  obtain ⟨level, shaped⟩ := reached.shaped
  have short := shaped.short_of_leads (leads (by decide))
  exact absurd (short longPath (by decide)) (by decide)

end MiraOS

import MiraOS.Kernel.HeapList

/-! The window of the heap as a tiling by blocks and slab pages. -/

namespace MiraOS

open Machine

/-- A piece of the window: a block with its header, or a page cut up by a slab cache. -/
inductive Piece where
  | block (block : Block)
  | page (address : Nat) (cache : Fin slabMaxOrder)
  deriving DecidableEq

/-- The first address of a piece. -/
def Piece.start : Piece → Nat
  | .block body => body.addr
  | .page address _ => address

/-- The length of a piece. -/
def Piece.length : Piece → Nat
  | .block body => headerSize + body.size
  | .page _ _ => 4096

/-- The blocks among some pieces, in the order of the block list. -/
def blocksOf (pieces : List Piece) : List Block :=
  pieces.filterMap fun piece => match piece with
    | .block block => some block
    | .page _ _ => none

/-- The pages of one cache among some pieces. -/
def pagesOf (cache : Fin slabMaxOrder) (pieces : List Piece) : List Nat :=
  pieces.filterMap fun piece => match piece with
    | .block _ => none
    | .page address owner => if owner = cache then some address else none

@[simp]
theorem blocksOf_append (left right : List Piece) :
    blocksOf (left ++ right) = blocksOf left ++ blocksOf right := List.filterMap_append

@[simp]
theorem blocksOf_block (block : Block) (rest : List Piece) :
    blocksOf (.block block :: rest) = block :: blocksOf rest := rfl

@[simp]
theorem blocksOf_page (address : Nat) (cache : Fin slabMaxOrder) (rest : List Piece) :
    blocksOf (.page address cache :: rest) = blocksOf rest := rfl

@[simp]
theorem blocksOf_nil : blocksOf [] = [] := rfl

@[simp]
theorem pagesOf_append (cache : Fin slabMaxOrder) (left right : List Piece) :
    pagesOf cache (left ++ right) = pagesOf cache left ++ pagesOf cache right := List.filterMap_append

@[simp]
theorem pagesOf_block (cache : Fin slabMaxOrder) (block : Block) (rest : List Piece) :
    pagesOf cache (.block block :: rest) = pagesOf cache rest := rfl

@[simp]
theorem pagesOf_page (cache owner : Fin slabMaxOrder) (address : Nat) (rest : List Piece) :
    pagesOf cache (.page address owner :: rest) =
      if owner = cache then address :: pagesOf cache rest else pagesOf cache rest := by
  unfold pagesOf
  -- The page is one of the cache's own or another cache's.
  by_cases same : owner = cache <;> simp [same]

@[simp]
theorem pagesOf_nil (cache : Fin slabMaxOrder) : pagesOf cache [] = [] := rfl

/-- A block of the window is a piece of it. -/
theorem mem_blocksOf {pieces : List Piece} {block : Block} :
    block ∈ blocksOf pieces ↔ .block block ∈ pieces := by
  -- Pages are dropped and blocks are kept, piece by piece.
  induction pieces with
  | nil => simp
  | cons piece rest ih =>
    cases piece with
    | block other => simp [ih]
    | page address cache => simp [ih]

/-- A page of a cache is a piece of the window. -/
theorem mem_pagesOf {cache : Fin slabMaxOrder} {pieces : List Piece} {address : Nat} :
    address ∈ pagesOf cache pieces ↔ .page address cache ∈ pieces := by
  -- A page of another cache is dropped like a block.
  induction pieces with
  | nil => simp
  | cons piece rest ih =>
    cases piece with
    | block other => simp [ih]
    | page first owner =>
      by_cases same : owner = cache
      · simp [same, ih]
      · simp [same, ih, Ne.symm same]

/-- The window holds these pieces without a gap, and its block list is well formed. -/
structure Layout (mem : Memory) (low high : Nat) (pieces : List Piece) : Prop where
  tiles : Tiles Piece.start Piece.length low pieces high
  list : BlockList mem (blocksOf pieces)
  -- The window begins with a block, which stays the head of the list.
  starts : ∃ first rest, pieces = .block first :: rest

section Changes

variable {mem : Memory} {low high : Nat} {before after : List Piece} {block : Block}

/-- A change after the first block keeps a block at the start of the window. -/
theorem starts_replace {piece : Piece} {tail : List Piece} (new : Block)
    (starts : ∃ first rest, before ++ piece :: after = .block first :: rest) :
    ∃ first rest, before ++ .block new :: tail = .block first :: rest := by
  -- Either the first piece is the one replaced, by a block, or it stays.
  obtain ⟨first, rest, same⟩ := starts
  cases before with
  | nil => exact ⟨new, tail, rfl⟩
  | cons head others =>
    obtain ⟨rfl, _⟩ := List.cons.inj same
    exact ⟨first, _, rfl⟩

/-- Replacing one block by pieces with the same extent keeps the tiling. -/
theorem tiles_replace (old new : List Piece) {first last : Nat}
    (tiles : Tiles Piece.start Piece.length low (before ++ (old ++ after)) high)
    (oldTiles : Tiles Piece.start Piece.length first old last) (nonempty : old ≠ [])
    (newTiles : Tiles Piece.start Piece.length first new last) :
    Tiles Piece.start Piece.length low (before ++ (new ++ after)) high := by
  obtain ⟨here, left, rest⟩ := tiles_append.mp tiles
  obtain ⟨there, middle, right⟩ := tiles_append.mp rest
  -- Both tilings of the replaced part start with its first piece and have its total length.
  have sameFirst : here = first := by
    cases old with
    | nil => exact absurd rfl nonempty
    | cons piece others => exact middle.1.symm.trans oldTiles.1
  subst sameFirst
  have sameLast : there = last := by
    have one := middle.sum_eq
    have two := oldTiles.sum_eq
    omega
  subst sameLast
  exact tiles_append.mpr ⟨here, left, tiles_append.mpr ⟨there, newTiles, right⟩⟩

/-- Storing the flag of a block keeps the layout. -/
theorem Layout.setFlag (layout : Layout mem low high (before ++ .block block :: after)) (free : Bool) :
    Layout (setFree mem block.addr (if free then 1 else 0)) low high
      (before ++ .block { block with free := free } :: after) where
  -- The block covers what it did, and only the list says something else of it.
  tiles := tiles_replace [.block block] [.block { block with free := free }] layout.tiles ⟨rfl, rfl⟩
    (by simp) ⟨rfl, rfl⟩
  list := by
    have list := layout.list
    simp only [blocksOf_append, blocksOf_block] at list ⊢
    exact list.setFlag free
  starts := starts_replace _ layout.starts

/-- A block that has taken over the one after it keeps the layout. -/
theorem Layout.absorb {last : Memory} {next : Block}
    (layout : Layout mem low high (before ++ .block block :: .block next :: after))
    (absorbed : Absorbed mem last block.addr next.addr) :
    Layout last low high (before ++
      .block { block with size := block.size + (headerSize + next.size) } :: after) := by
  -- In a tiling two neighbouring pieces touch.
  have touch : next.addr = block.stop := by
    obtain ⟨_, _, here, there, _⟩ := tiles_append.mp layout.tiles
    simp only [Piece.start, Piece.length] at here there
    simp only [Block.stop]
    omega
  constructor
  · have both : Tiles Piece.start Piece.length block.addr [.block block, .block next] next.stop := by
      simp only [Block.stop] at touch
      simp only [Tiles, Piece.start, Piece.length, Block.stop, true_and]
      omega
    refine tiles_replace _ [.block { block with size := block.size + (headerSize + next.size) }]
      layout.tiles both (by simp) ?_
    simp only [Block.stop] at touch
    simp only [Tiles, Piece.start, Piece.length, Block.stop, true_and]
    omega
  · have list := layout.list
    simp only [blocksOf_append, blocksOf_block] at list ⊢
    exact list.absorb touch absorbed
  · exact starts_replace _ layout.starts

/-- The two parts of a block that has been cut. -/
def carve (block : Block) (size : Nat) : List Block :=
  [{ block with size := size },
    ⟨block.addr + headerSize + size, block.size - size - headerSize, true⟩]

/-- Cutting a block keeps the layout. -/
theorem Layout.split (layout : Layout mem low high (before ++ .block block :: after)) {size : Nat}
    (room : size + headerSize + minBlock ≤ block.size) :
    Layout (splitBlock mem block.addr size) low high
      (before ++ ((carve block size).map .block ++ after)) ∧
    OnlyHeaders (block.addr :: (block.addr + headerSize + size) :: headersOf (blocksOf after)) mem
      (splitBlock mem block.addr size) := by
  -- The list part is done; the two halves with the new header have the old length.
  have list := layout.list
  simp only [blocksOf_append, blocksOf_block] at list
  obtain ⟨divided, only⟩ := list.split room
  refine ⟨⟨?_, ?_, starts_replace _ layout.starts⟩, only⟩
  · refine tiles_replace [.block block] ((carve block size).map .block) layout.tiles
      ⟨rfl, rfl⟩ (by simp) ⟨rfl, ?_, ?_⟩
    · simp only [Piece.start, Piece.length]; omega
    · simp only [Piece.start, Piece.length, List.map_nil, Tiles]; omega
  · simpa [carve] using divided

/-- The next block of the list is the next piece, if it touches. -/
theorem Layout.next_piece {next : Block} {rest : List Block}
    (layout : Layout mem low high (before ++ .block block :: after))
    (follows : blocksOf after = next :: rest) (touch : next.addr = block.stop) :
    ∃ others, after = .block next :: others ∧ blocksOf others = rest := by
  obtain ⟨_, _, here, tail⟩ := tiles_append.mp layout.tiles
  cases after with
  | nil => simp at follows
  | cons piece others =>
    cases piece with
    | block first =>
      obtain ⟨rfl, rfl⟩ := List.cons.inj follows
      exact ⟨others, rfl, rfl⟩
    | page address cache =>
      -- A page in between takes up the place where the two would touch.
      have member : Piece.block next ∈ others :=
        mem_blocksOf.mp (by rw [← blocksOf_page address cache, follows]; exact List.mem_cons_self)
      have beyond := (tail.2.inside member).1
      simp only [Piece.start, Piece.length] at here beyond
      simp only [Block.stop] at touch
      omega

/-- The previous block of the list is the previous piece, if it touches. -/
theorem Layout.prev_piece {prev : Block} {rest : List Block}
    (layout : Layout mem low high (before ++ .block block :: after))
    (precedes : blocksOf before = rest ++ [prev]) (touch : block.addr = prev.stop) :
    ∃ others, before = others ++ [.block prev] ∧ blocksOf others = rest := by
  rcases List.eq_nil_or_concat before with rfl | ⟨others, piece, rfl⟩
  · simp at precedes
  · rw [List.concat_eq_append] at *
    cases piece with
    | block last =>
      simp only [blocksOf_append, blocksOf_block, blocksOf_nil] at precedes
      obtain ⟨rfl, same⟩ := List.append_inj' precedes rfl
      obtain rfl : last = prev := List.singleton_inj.mp same
      exact ⟨others, rfl, rfl⟩
    | page address cache =>
      -- A page in between would have to lie where the two touch.
      have member : Piece.block prev ∈ others := by
        refine mem_blocksOf.mp ?_
        simp only [blocksOf_append, blocksOf_page, blocksOf_nil, List.append_nil] at precedes
        rw [precedes]
        simp
      obtain ⟨here, left, at_, _⟩ := tiles_append.mp layout.tiles
      obtain ⟨middle, first, page⟩ := tiles_append.mp left
      have ends := (first.inside member).2
      have one := page.1
      have two := page.2
      simp only [Tiles, Piece.start, Piece.length] at at_ ends one two
      simp only [Block.stop] at touch
      omega

end Changes

/-- Free blocks have been joined; blocks in use and pages have not been touched. -/
structure Coarser (old new : List Piece) : Prop where
  used : ∀ block, block.free = false → (block ∈ blocksOf new ↔ block ∈ blocksOf old)
  pages : ∀ cache, pagesOf cache new = pagesOf cache old
  free : ∀ block ∈ blocksOf old, block.free = true →
    ∃ cover ∈ blocksOf new, cover.free = true ∧ cover.addr ≤ block.addr ∧ block.stop ≤ cover.stop

/-- Joining nothing. -/
theorem Coarser.refl (pieces : List Piece) : Coarser pieces pieces :=
  ⟨fun _ _ => Iff.rfl, fun _ => rfl,
    fun block member free => ⟨block, member, free, Nat.le_refl _, Nat.le_refl _⟩⟩

/-- Joining in two steps. -/
theorem Coarser.trans {one two three : List Piece} (first : Coarser one two)
    (second : Coarser two three) : Coarser one three where
  used block free := (second.used block free).trans (first.used block free)
  pages cache := (second.pages cache).trans (first.pages cache)
  free := by
    -- A free block is covered by one of the second layout, and that by one of the third.
    intro block member free
    obtain ⟨cover, covered, coverFree, low, high⟩ := first.free block member free
    obtain ⟨wider, widerCovered, widerFree, widerLow, widerHigh⟩ :=
      second.free cover covered coverFree
    exact ⟨wider, widerCovered, widerFree, Nat.le_trans widerLow low, Nat.le_trans high widerHigh⟩

/-- Joining two free neighbours that touch. -/
theorem coarser_absorb {before after : List Piece} {block next : Block} (free : block.free = true)
    (nextFree : next.free = true) (touch : next.addr = block.stop) :
    Coarser (before ++ .block block :: .block next :: after)
      (before ++ .block { block with size := block.size + (headerSize + next.size) } :: after) where
  used := by
    intro other used
    -- A block in use is neither of the two nor what they become.
    have notBlock : other ≠ block := by rintro rfl; simp [free] at used
    have notNext : other ≠ next := by rintro rfl; simp [nextFree] at used
    have notJoined : other ≠ { block with size := block.size + (headerSize + next.size) } := by
      rintro rfl
      simp [free] at used
    simp [notBlock, notNext, notJoined]
  pages cache := by simp
  free := by
    intro other member otherFree
    simp only [blocksOf_append, blocksOf_block, List.mem_append, List.mem_cons] at member ⊢
    simp only [Block.stop] at touch ⊢
    -- Both neighbours lie inside the joined block, and every other block covers itself.
    rcases member with member | rfl | rfl | member
    · exact ⟨other, .inl member, otherFree, Nat.le_refl _, Nat.le_refl _⟩
    · exact ⟨_, .inr (.inl rfl), free, Nat.le_refl _, by simp only; omega⟩
    · exact ⟨_, .inr (.inl rfl), free, by simp only; omega, by simp only; omega⟩
    · exact ⟨other, .inr (.inr member), otherFree, Nat.le_refl _, Nat.le_refl _⟩

end MiraOS

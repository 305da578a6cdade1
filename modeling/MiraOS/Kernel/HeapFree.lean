import MiraOS.Kernel.HeapLayout

/-! Giving a block back: its flag, and the merges with its neighbours in the list. -/

namespace MiraOS

open Machine

section Merge

attribute [local irreducible] blockSize blockFree blockNext blockPrev setSize setFree setNext setPrev

variable {mem : Memory} {low high : Nat} {before after : List Piece} {block : Block}

/-- The merge with the next block joins it exactly when it is free. -/
theorem Layout.mergeNext (layout : Layout mem low high (before ++ .block block :: after))
    (free : block.free = true)
    (touch : ∀ next ∈ (blocksOf after).head?, next.free = true → next.addr = block.stop) :
    ∃ size rest, Layout (MiraOS.mergeNext mem block.addr) low high
        (before ++ .block { block with size := size } :: rest) ∧
      Coarser (before ++ .block block :: after)
        (before ++ .block { block with size := size } :: rest) ∧
      (∀ other ∈ blocksOf rest, other ∈ blocksOf after) ∧
      OnlyHeaders (headersOf (block :: blocksOf after)) mem (MiraOS.mergeNext mem block.addr) := by
  have list := layout.list
  simp only [blocksOf_append, blocksOf_block] at list
  obtain ⟨_, _, link, _⟩ := list.fields
  -- Where the test of the source fails, memory stays as it is.
  have unchanged : ¬ (blockNext mem block.addr ≠ 0 ∧ blockFree mem (blockNext mem block.addr) ≠ 0) →
      ∃ size rest, Layout (MiraOS.mergeNext mem block.addr) low high
          (before ++ .block { block with size := size } :: rest) ∧
        Coarser (before ++ .block block :: after)
          (before ++ .block { block with size := size } :: rest) ∧
        (∀ other ∈ blocksOf rest, other ∈ blocksOf after) ∧
        OnlyHeaders (headersOf (block :: blocksOf after)) mem (MiraOS.mergeNext mem block.addr) := by
    intro stays
    rw [MiraOS.mergeNext, if_neg stays]
    exact ⟨block.size, after, layout, .refl _, fun _ member => member, fun _ _ => rfl⟩
  cases follows : blocksOf after with
  | nil =>
    rw [follows] at link unchanged
    exact unchanged (by simp [link, firstOf])
  | cons next rest =>
    rw [follows] at list link touch unchanged
    have moved : BlockList mem ((blocksOf before ++ [block]) ++ next :: rest) := by simpa using list
    obtain ⟨nextSize, nextFlag, nextLink, _⟩ := moved.fields
    simp only [firstOf] at link
    cases nextFree : next.free with
    -- A block in use behind this one fails the test.
    | false => exact unchanged (by simp [link, nextFlag, nextFree])
    | true =>
      -- A free one touches by assumption, so it is the next piece of the window as well.
      have touches := touch next (by simp) nextFree
      obtain ⟨others, isNext, rfl⟩ := layout.next_piece follows touches
      subst isNext
      have bound := list.bounded block (by simp)
      have nextBound := list.bounded next (by simp)
      obtain ⟨size, _, _, _⟩ := list.fields
      simp only [Block.stop] at touches bound nextBound
      -- The block behind the next one lies beyond it.
      have absorbed : Absorbed mem (MiraOS.mergeNext mem block.addr) block.addr next.addr := by
        refine mergeNext_absorbs (by omega) link (by omega) (by simp [nextFlag, nextFree])
          (.inr (by omega)) ?_ (by rw [size, nextSize]; omega)
        rw [nextLink]
        intro some
        cases behind : blocksOf others with
        | nil => simp [behind, firstOf] at some
        | cons third more =>
          have far := moved.around.2 third (by simp [behind])
          simp only [Block.stop] at far
          exact .inr (by simp only [firstOf]; omega)
      refine ⟨block.size + (headerSize + next.size), others, layout.absorb absorbed,
        coarser_absorb free nextFree touches, fun other member => List.mem_cons_of_mem _ member, ?_⟩
      refine absorbed.only.mono fun address member => ?_
      rw [nextLink] at member
      simp only [headersOf, List.map_cons, List.mem_cons] at member ⊢
      exact member.imp_right fun member => .inr (present_firstOf member)

/-- The merge with the previous block joins it exactly when it is free. -/
theorem Layout.mergePrev (layout : Layout mem low high (before ++ .block block :: after))
    (free : block.free = true)
    (touch : ∀ prev ∈ (blocksOf before).getLast?, prev.free = true → block.addr = prev.stop) :
    ∃ pieces, Layout (MiraOS.mergePrev mem block.addr) low high pieces ∧
      Coarser (before ++ .block block :: after) pieces ∧
      OnlyHeaders (headersOf (blocksOf (before ++ .block block :: after))) mem
        (MiraOS.mergePrev mem block.addr) := by
  have list := layout.list
  simp only [blocksOf_append, blocksOf_block] at list
  obtain ⟨_, _, link, back⟩ := list.fields
  -- Where the test of the source fails, memory stays as it is.
  have unchanged : ¬ (blockPrev mem block.addr ≠ 0 ∧ blockFree mem (blockPrev mem block.addr) ≠ 0) →
      ∃ pieces, Layout (MiraOS.mergePrev mem block.addr) low high pieces ∧
        Coarser (before ++ .block block :: after) pieces ∧
        OnlyHeaders (headersOf (blocksOf (before ++ .block block :: after))) mem
          (MiraOS.mergePrev mem block.addr) := by
    intro stays
    rw [MiraOS.mergePrev, if_neg stays]
    exact ⟨_, layout, .refl _, fun _ _ => rfl⟩
  -- The block before this one is the last of the left part, if it is not empty.
  rcases List.eq_nil_or_concat (blocksOf before) with precedes | ⟨earlier, prev, precedes⟩
  · rw [precedes] at back
    exact unchanged (by simp [back, lastOf])
  · rw [List.concat_eq_append] at precedes
    rw [precedes, lastOf_append] at back
    simp only [lastOf] at back
    have moved : BlockList mem (earlier ++ prev :: (block :: blocksOf after)) := by
      simpa [precedes] using list
    obtain ⟨prevSize, prevFlag, _, _⟩ := moved.fields
    cases prevFree : prev.free with
    | false => exact unchanged (by simp [back, prevFlag, prevFree])
    | true =>
      have touches := touch prev (by simp [precedes]) prevFree
      obtain ⟨others, isPrev, rfl⟩ := layout.prev_piece precedes touches
      subst isPrev
      have there : Layout mem low high (others ++ .block prev :: .block block :: after) := by
        simpa using layout
      have bound := moved.bounded block (by simp)
      have prevBound := moved.bounded prev (by simp)
      obtain ⟨size, _, _, _⟩ := list.fields
      simp only [Block.stop] at touches bound prevBound
      -- Now the previous block takes this one over, so the roles are exchanged.
      have absorbed : Absorbed mem (MiraOS.mergePrev mem block.addr) prev.addr block.addr := by
        refine mergePrev_absorbs (by omega) back (by omega) (by simp [prevFlag, prevFree])
          (.inr (by omega)) ?_ (by rw [size, prevSize]; omega)
        rw [link]
        intro some
        cases behind : blocksOf after with
        | nil => simp [behind, firstOf] at some
        | cons third more =>
          have far := list.around.2 third (by simp [behind])
          simp only [Block.stop] at far
          exact .inr (by simp only [firstOf]; omega)
      -- The two blocks are one now, and the pieces around them stay.
      refine ⟨_, there.absorb absorbed, ?_, ?_⟩
      · have joined : Coarser (others ++ .block prev :: .block block :: after) _ :=
          coarser_absorb prevFree free touches
        simpa using joined
      · refine absorbed.only.mono fun address member => ?_
        rw [link] at member
        simp only [headersOf, blocksOf_append, blocksOf_block, blocksOf_nil, List.map_append,
          List.map_cons, List.map_nil, List.mem_append, List.mem_cons] at member ⊢
        rcases member with same | member
        · exact .inl (.inr (.inl same))
        · exact .inr (.inr (present_firstOf member))

end Merge

/-- What is left of a block's neighbours when its flag is set and both merges are done. -/
structure Released (mem last : Memory) (low high : Nat) (block : Block) (old new : List Piece) :
    Prop where
  layout : Layout last low high new
  -- The blocks still in use are the ones that were, except this one.
  used : ∀ other, other.free = false →
    (other ∈ blocksOf new ↔ other ∈ blocksOf old ∧ other ≠ block)
  pages : ∀ cache, pagesOf cache new = pagesOf cache old
  available : ∃ cover ∈ blocksOf new, cover.free = true ∧ cover.addr ≤ block.addr ∧
    block.stop ≤ cover.stop
  -- Whatever was available before still is.
  -- The same for the block in front, whose link back comes from the same list.
  free : ∀ other ∈ blocksOf old, other.free = true →
    ∃ cover ∈ blocksOf new, cover.free = true ∧ cover.addr ≤ other.addr ∧ other.stop ≤ cover.stop
  only : OnlyHeaders (headersOf (blocksOf old)) mem last

/-- Giving back a block whose free neighbours touch it. -/
theorem Layout.release {mem : Memory} {low high : Nat} {before after : List Piece} {block : Block}
    (layout : Layout mem low high (before ++ .block block :: after))
    (touchNext : ∀ next ∈ (blocksOf after).head?, next.free = true → next.addr = block.stop)
    (touchPrev : ∀ prev ∈ (blocksOf before).getLast?, prev.free = true → block.addr = prev.stop) :
    ∃ pieces, Released mem (mergeAdjacent (setFree mem block.addr 1) block.addr) low high block
      (before ++ .block block :: after) pieces := by
  -- The three steps of the source: the flag, the merge forwards, the merge backwards.
  have flagged : Layout (setFree mem block.addr 1) low high
      (before ++ .block { block with free := true } :: after) := layout.setFlag true
  obtain ⟨size, rest, joined, coarser, kept, only⟩ := flagged.mergeNext rfl touchNext
  obtain ⟨pieces, merged, coarserPrev, onlyPrev⟩ := joined.mergePrev rfl touchPrev
  -- The pointer is one header behind the block, so the release works on the block itself.
  have whole := coarser.trans coarserPrev
  -- The block is not at two places of the list.
  have once : ∀ other ∈ blocksOf before ++ blocksOf after, other ≠ block := by
    have list := layout.list
    simp only [blocksOf_append, blocksOf_block] at list
    intro other member
    rintro rfl
    rcases List.mem_append.mp member with member | member
    · have := list.around.1 _ member
      simp only [Block.stop, headerSize] at this
      omega
    · have := list.around.2 _ member
      simp only [Block.stop, headerSize] at this
      omega
  refine ⟨pieces, merged, ?_, ?_, ?_, ?_, ?_⟩
  · -- A used block is one of the others, which neither the flag nor the merges touch.
    intro other used
    have notFlagged : other ≠ { block with free := true } := by
      rintro rfl
      simp at used
    rw [whole.used other used]
    simp only [blocksOf_append, blocksOf_block, List.mem_append, List.mem_cons, notFlagged, false_or]
    constructor
    · intro member
      exact ⟨member.imp_right .inr, once other (List.mem_append.mpr member)⟩
    · rintro ⟨member, other⟩
      exact member.imp_right fun member => member.resolve_left other
  · intro cache
    rw [whole.pages cache]
    simp
  · obtain ⟨cover, member, free, start, stop⟩ :=
      whole.free { block with free := true } (by simp) rfl
    exact ⟨cover, member, free, start, stop⟩
  · -- The freed block itself is covered by the merged one, and any other free block stays covered.
    intro other member free
    by_cases same : other = block
    · obtain ⟨cover, member, free, start, stop⟩ :=
        whole.free { block with free := true } (by simp) rfl
      rw [same]
      exact ⟨cover, member, free, start, stop⟩
    · refine whole.free other ?_ free
      simp only [blocksOf_append, blocksOf_block, List.mem_append, List.mem_cons] at member ⊢
      exact member.imp_right fun member => .inr (member.resolve_left same)
  -- Each step writes only headers of the list as it was before the call.
  · have all := (onlyHeaders_set.2.1.trans only).trans onlyPrev
    refine all.mono fun address member => ?_
    simp only [headersOf, blocksOf_append, blocksOf_block, List.map_append, List.map_cons,
      List.mem_append, List.mem_cons, List.not_mem_nil, or_false, List.mem_map] at member ⊢
    rcases member with (same | same | later) | earlier | same | ⟨other, later, same⟩
    · exact .inr (.inl same)
    · exact .inr (.inl same)
    · exact .inr (.inr later)
    · exact .inl earlier
    · exact .inr (.inl same)
    · exact .inr (.inr ⟨other, kept other later, same⟩)

end MiraOS

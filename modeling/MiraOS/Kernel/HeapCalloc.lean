import MiraOS.Kernel.HeapRealloc
import MiraOS.Kernel.HeapAdequate

/-! Which cleared arrays cover what was asked for: those whose size in bytes does not wrap around. -/

namespace MiraOS

open Machine

/-- An array is answered with null, or with zeros for all of its elements. -/
def CoversArray (system : HeapSystem) (nmemb size : Nat) : Prop :=
  ∃ ptr next, Settles (fun fuel => kcalloc fuel system.heap nmemb size) (ptr, next) ∧
    (ptr = 0 ∨ Usable system (nmemb * size) ptr next ∧ ∀ i < nmemb * size, next.mem (ptr + i) = 0)

attribute [local irreducible] blockSize blockFree blockNext blockPrev setSize setFree setNext setPrev
  pagingHeapBase

/-- A cleared array is covered exactly when the request is answered and the size in bytes does not wrap around. -/
theorem Reached.covers_iff {system : HeapSystem} {pieces : List Piece} {free : Fin slabMaxOrder → List Nat}
    (reached : Reached system pieces free) (nmemb size : Nat) :
    (Panics (fun fuel => kcalloc fuel system.heap nmemb size) ↔
      OutOfPages system.heap (nmemb * size % 2 ^ 64)) ∧
    (CoversArray system nmemb size ↔ ¬ OutOfPages system.heap (nmemb * size % 2 ^ 64) ∧
      (nmemb * size + 15 < 2 ^ 64 ∨ GivesNull system.heap (nmemb * size % 2 ^ 64))) := by
  rcases reached.answers (Nat.mod_lt (nmemb * size) (by decide)) with
    ⟨out, panicked⟩ | ⟨next, inside, null, settled⟩ | ⟨ptr, next, inside, some, nonzero, settled, base, small, kept⟩
  · -- The request panics, and with it the call.
    obtain ⟨message, stops⟩ := panicked
    have panics : Panics (fun fuel => kcalloc fuel system.heap nmemb size) := ⟨message, stops.bind⟩
    refine ⟨⟨fun _ => out, fun _ => panics⟩, fun covers => ?_, fun covered => absurd out covered.1⟩
    obtain ⟨ptr, next, settled, -⟩ := covers
    exact absurd settled panics.not_settles
  · -- Null is passed on.
    have answer : Settles (fun fuel => kcalloc fuel system.heap nmemb size) (0, next) :=
      settled.bind (.now fun _ => by dsimp only; rw [if_pos rfl]; rfl)
    refine ⟨⟨fun panics => absurd answer panics.not_settles, fun out => absurd out inside⟩, fun _ =>
      ⟨inside, .inr null⟩, fun _ => ⟨0, next, answer, .inl rfl⟩⟩
  · -- The pointer is passed on once its bytes are cleared.
    have answer : Settles (fun fuel => kcalloc fuel system.heap nmemb size) (ptr, { next with
        mem := (List.range (nmemb * size % 2 ^ 64)).foldl (fun mem i => Function.update mem (ptr + i) 0) next.mem }) :=
      settled.bind (.now fun _ => by dsimp only; rw [if_neg nonzero]; rfl)
    refine ⟨⟨fun panics => absurd answer panics.not_settles, fun out => absurd out inside⟩, fun covers => ?_,
      fun covered => ?_⟩
    · obtain ⟨other, last, settledToo, result⟩ := covers
      cases settledToo.unique answer
      -- Nothing in the window is as large as a product that wraps around.
      refine ⟨inside, .inl (by_contra fun wraps => ?_)⟩
      rcases result with null | ⟨usable, -⟩
      · exact nonzero null
      · exact absurd usable (not_usable_of_wraps wraps base small)
    · -- A product that does not wrap is the size of the request.
      have fits := covered.2.resolve_right some
      have total : nmemb * size % 2 ^ 64 = nmemb * size := Nat.mod_eq_of_lt (by omega)
      rw [total] at answer kept
      obtain ⟨new, left, whole⟩ := kept fits
      refine ⟨ptr, _, answer, .inr ⟨(whole.cleared nonzero).usable nonzero, fun i below => ?_⟩⟩
      dsimp only
      rw [clear_apply, if_pos (by omega)]

/-- In every state of a run of callers that release touching blocks only, the heap is well formed. -/
theorem reached_of_calls {fuel : Nat} {mem : Memory} {paging : Paging (List Nat)} {heap : Heap} {ops : List CallOp}
    {final : HeapSystem} (distinct : DistinctFrames paging.pmm) (called : heapInit fuel mem paging = .ok heap)
    (run : Run (CallStep Rounds TouchingBlock) ⟨heap, [], []⟩ ops final) :
    ∃ pieces free, Reached final pieces free :=
  run.preserves (fun system => ∃ pieces free, Reached system pieces free)
    (fun ⟨_, _, reached⟩ step => reached.call step) ⟨_, _, heapInit_reached distinct called⟩

/--
Which cleared arrays are covered.

In every state of a run whose requests do not wrap around and whose releases merge touching blocks only, the
answer is null or zeros for the whole array exactly when the call does not run out of pages, which is when it
panics, and either the exact product can be rounded up in 64 bits or what is left of it is answered with null.
-/
theorem kcalloc_covers_iff {fuel : Nat} {mem : Memory} {paging : Paging (List Nat)} {heap : Heap} {ops : List CallOp}
    {final : HeapSystem} (distinct : DistinctFrames paging.pmm) (called : heapInit fuel mem paging = .ok heap)
    (run : Run (CallStep Rounds TouchingBlock) ⟨heap, [], []⟩ ops final) (nmemb size : Nat) :
    (Panics (fun fuel => kcalloc fuel final.heap nmemb size) ↔
      OutOfPages final.heap (nmemb * size % 2 ^ 64)) ∧
    (CoversArray final nmemb size ↔ ¬ OutOfPages final.heap (nmemb * size % 2 ^ 64) ∧
      (nmemb * size + 15 < 2 ^ 64 ∨ GivesNull final.heap (nmemb * size % 2 ^ 64))) := by
  obtain ⟨pieces, free, reached⟩ := reached_of_calls distinct called run
  exact reached.covers_iff nmemb size

/-- Right after boot, an array of eight words is covered. -/
theorem words_covered : ∃ heap,
    heapInit 1 (fun _ => 0) (bootedWindow [0x200000, 0x201000, 0x202000, 0x203000]) = .ok heap ∧
    CoversArray ⟨heap, [], []⟩ 8 8 := by
  obtain ⟨heap, init, -, can, -⟩ := oversizedRun_ok
  -- Eight words are 64 bytes, and the heap has a page for their cache.
  refine ⟨heap, init, (kcalloc_covers_iff oversizedRun_frames init (.nil _) 8 8).2.mpr ⟨?_, ?_⟩⟩
  · rintro (⟨large, -⟩ | ⟨-, -, -, -, cannot⟩)
    · exact absurd large (by decide)
    · exact cannot can
  · exact .inl (by decide)

/-- An array of 2^61 + 8 words gets 64 bytes, as the product of its sizes wraps around. -/
theorem wrapped_array_not_covered :
    ¬ ∀ (fuel : Nat) (mem : Memory) (paging : Paging (List Nat)) (heap : Heap) (ops : List CallOp) (final : HeapSystem)
      (nmemb size : Nat), DistinctFrames paging.pmm → heapInit fuel mem paging = .ok heap →
      Run (CallStep Rounds TouchingBlock) ⟨heap, [], []⟩ ops final → nmemb < 2 ^ 64 → size < 2 ^ 64 →
      CoversArray final nmemb size := by
  intro claim
  obtain ⟨heap, init, left, -⟩ := oversizedRun_ok
  have covers := claim _ _ _ _ _ _ (2 ^ 61 + 8) 8 oversizedRun_frames init (.nil _) (by decide) (by decide)
  have frame : heap.takeFrame.1 ≠ 0 := by simp [Heap.takeFrame, left]
  have total : (2 ^ 61 + 8) * 8 % 2 ^ 64 = 64 := by decide
  obtain ⟨-, fits | null⟩ := ((heapInit_reached oversizedRun_frames init).covers_iff _ _).2.mp covers
  · exact absurd fits (by decide)
  · rw [total] at null
    -- Sixty-four bytes are no request for null: the cache of their size has a frame to take.
    rcases null with zero | ⟨order, -, -, empty⟩ | ⟨large, -⟩
    · exact absurd zero (by decide)
    · exact frame empty
    · exact absurd large (by decide)

end MiraOS

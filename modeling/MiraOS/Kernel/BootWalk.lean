import MiraOS.Kernel.BootMap
import MiraOS.Drivers.Framebuffer

/-! The walks over the boot information come to their end when its sizes take them there. -/

namespace MiraOS

open Machine

/-- The tags that a walk over the boot information comes to, the end tag included. -/
inductive TagReached (info : Memory) (mbi : Nat) : Nat → Prop where
  | first : TagReached info mbi (add64 mbi 8)
  | next {tag : Nat} (reached : TagReached info mbi tag) (more : read32 info tag ≠ 0) :
      TagReached info mbi (mbiNext info tag)

/-- The size of a tag, rounded up as the walk does. -/
def roundedSize (info : Memory) (tag : Nat) : Nat := (read32 info (tag + 4) + 7) % 2 ^ 32 / 8 * 8

/--
What a boot loader promises of its information block.

No size that the walk adds is zero, and the walk comes to an end tag before the end of the block.
-/
structure BootBlock (info : Memory) (mbi total : Nat) : Prop where
  -- The block is in physical memory, far from the end of the addresses.
  fits : mbi + total + 2 ^ 32 ≤ 2 ^ 64
  -- The header of the block, and the first tag.
  header : 16 ≤ total
  sized : ∀ tag, TagReached info mbi tag → read32 info tag ≠ 0 → roundedSize info tag ≠ 0
  inside : ∀ tag, TagReached info mbi tag → read32 info tag ≠ 0 →
    tag + roundedSize info tag + 8 ≤ mbi + total
  -- A memory map tag that has room for an entry says how large an entry is.
  entries : ∀ tag, TagReached info mbi tag → read32 info tag = 6 → 16 < read32 info (tag + 4) →
    read32 info (tag + 8) ≠ 0

/-- A rounded size that is not zero is a step of at least eight bytes over the whole tag. -/
theorem roundedSize_covers {info : Memory} {tag : Nat} (sized : roundedSize info tag ≠ 0) :
    8 ≤ roundedSize info tag ∧ read32 info (tag + 4) ≤ roundedSize info tag := by
  -- A size within seven bytes of the range wraps to less than eight, and rounds to zero.
  have range := read32_lt info (tag + 4)
  simp only [roundedSize] at *
  omega

namespace BootBlock

variable {info : Memory} {mbi total : Nat}

/-- The next tag is behind this one and still in the block. -/
theorem mbiNext_eq (block : BootBlock info mbi total) {tag : Nat} (reached : TagReached info mbi tag)
    (more : read32 info tag ≠ 0) : mbiNext info tag = tag + roundedSize info tag := by
  -- The rounded size fits, since the next tag is in the block.
  have inside := block.inside tag reached more
  have fits := block.fits
  exact add64_of_lt (by simp only [roundedSize] at inside; omega)

/-- Every tag of the walk is in the block. -/
theorem reached_inside (block : BootBlock info mbi total) {tag : Nat}
    (reached : TagReached info mbi tag) : tag + 8 ≤ mbi + total := by
  -- The first tag is behind the header, and each other one behind a tag of the block.
  cases reached with
  | first =>
    have fits := block.fits
    have header := block.header
    rw [add64_of_lt (by omega)]
    omega
  | next reached more =>
    rw [block.mbiNext_eq reached more]
    exact block.inside _ reached more

/-- Every step of the walk strictly advances. -/
theorem advances (block : BootBlock info mbi total) {tag : Nat} (reached : TagReached info mbi tag)
    (more : read32 info tag ≠ 0) : tag + 8 ≤ mbiNext info tag := by
  have step := (roundedSize_covers (block.sized tag reached more)).1
  rw [block.mbiNext_eq reached more]
  omega

/-- The last byte of a tag is in the block. -/
theorem size_inside (block : BootBlock info mbi total) {tag : Nat} (reached : TagReached info mbi tag)
    (more : read32 info tag ≠ 0) : tag + read32 info (tag + 4) + 8 ≤ mbi + total := by
  -- The size that is not rounded is the smaller one.
  have covers := (roundedSize_covers (block.sized tag reached more)).2
  have inside := block.inside tag reached more
  omega

/-- Every step over the entries of a memory map tag strictly advances. -/
theorem entry_advances (block : BootBlock info mbi total) {tag entry : Nat}
    (reached : TagReached info mbi tag) (mmap : read32 info tag = 6) (low : tag + 16 ≤ entry)
    (high : entry < tag + read32 info (tag + 4)) :
    entry < add64 entry (read32 info (tag + 8)) := by
  have size := block.size_inside reached (by omega)
  -- A tag with room for an entry has an entry size.
  have nonzero := block.entries tag reached mmap (by omega)
  have range := read32_lt info (tag + 8)
  have fits := block.fits
  rw [add64_of_lt (by omega)]
  omega

end BootBlock

/-- An entry loop whose steps advance below a limit ends within as many steps as there are bytes. -/
theorem mmapEntries_ends {info : Memory} {entrySize limit fuel entry : Nat}
    (advances : ∀ other, entry ≤ other → other < limit → other < add64 other entrySize)
    (enough : limit ≤ entry + fuel) :
    ∃ entries, mmapEntries info entrySize limit fuel entry = some entries := by
  -- The distance to the limit shrinks by one byte at least with each step.
  induction fuel generalizing entry with
  | zero => exact ⟨[], by simp [mmapEntries, show ¬ entry < limit by omega]⟩
  | succ fuel ih =>
    by_cases more : entry < limit
    · have step := advances entry (Nat.le_refl _) more
      obtain ⟨rest, visited⟩ := @ih (add64 entry entrySize) (fun other low => advances other (by omega))
        (by omega)
      exact ⟨readMmapEntry info entry :: rest, by simp [mmapEntries, more, visited]⟩
    · exact ⟨[], by simp [mmapEntries, more]⟩

/-- The walk over the memory map of a good block ends within as many steps as the block has bytes. -/
theorem tagEntries_ends {info : Memory} {mbi total : Nat} (block : BootBlock info mbi total)
    {fuel tag : Nat} (reached : TagReached info mbi tag) (enough : mbi + total ≤ tag + fuel) :
    ∃ entries, tagEntries info fuel tag = some entries := by
  have inside := block.reached_inside reached
  -- The distance to the end of the block is what the fuel has to cover.
  induction fuel generalizing tag with
  | zero => omega
  | succ fuel ih =>
    by_cases last : read32 info tag = 0
    · exact ⟨[], by simp [tagEntries, last]⟩
    · -- The next tag is at least one byte on, which pays for the step.
      have step := block.advances reached last
      have next := TagReached.next reached last
      obtain ⟨rest, visited⟩ := ih next (by omega) (block.reached_inside next)
      by_cases mmap : read32 info tag = 6
      · -- The entries of the tag are in the block, so their number is covered too.
        have fits := block.fits
        have size := block.size_inside reached last
        have range := read32_lt info (tag + 4)
        have limit : add64 tag (read32 info (tag + 4)) = tag + read32 info (tag + 4) :=
          add64_of_lt (by omega)
        have start : add64 tag 16 = tag + 16 := add64_of_lt (by omega)
        obtain ⟨here, found⟩ := @mmapEntries_ends info (read32 info (tag + 8))
          (tag + read32 info (tag + 4)) fuel (tag + 16)
          (fun other low high => block.entry_advances reached mmap low high) (by omega)
        refine ⟨here ++ rest, ?_⟩
        simp [tagEntries, mmap, limit, start, found, visited]
      · exact ⟨rest, by simp [tagEntries, last, mmap, visited]⟩

/-- The walk for the framebuffer ends within as many steps as the block has bytes. -/
theorem fbLoop_ends {info : Memory} {mbi total : Nat} (block : BootBlock info mbi total)
    {fuel tag : Nat} (reached : TagReached info mbi tag) (enough : mbi + total ≤ tag + fuel)
    {kmalloc : Nat → Except Halt Nat} {statics : FbStatics}
    (stopped : fbLoop info kmalloc fuel tag statics = .error .outOfFuel) :
    ∃ size, kmalloc size = .error .outOfFuel := by
  have inside := block.reached_inside reached
  -- The walk is the one over the tags again, with another tag to look for.
  induction fuel generalizing tag with
  | zero => omega
  | succ fuel ih =>
    rw [fbLoop] at stopped
    by_cases last : read32 info tag = 0
    · simp [last] at stopped
    · rw [if_neg last] at stopped
      by_cases found : read32 info tag = 8
      · -- The framebuffer tag ends the walk, and asks for the back buffer.
        rw [if_pos found, fbFound] at stopped
        refine ⟨totalBytes (readFramebufferTag info tag), ?_⟩
        cases answer : kmalloc (totalBytes (readFramebufferTag info tag)) with
        | error halt =>
          rw [answer] at stopped
          cases stopped
          rfl
        | ok pointer =>
          rw [answer] at stopped
          cases stopped
      · rw [if_neg found] at stopped
        have step := block.advances reached last
        have next := TagReached.next reached last
        exact ih next (by omega) stopped (block.reached_inside next)

/-- A page loop never runs out of steps. -/
theorem BoundedBody.not_outOfFuel {body : Pmm → Nat → Except Halt Pmm} (bounded : BoundedBody body)
    (count page : Nat) (pmm : Pmm) : MiraOS.forPages body count page pmm ≠ .error .outOfFuel := by
  -- A loop over pages ends with a bitmap or at a page outside it.
  rcases bounded.forPages count page pmm with ⟨_, final, ran⟩ | ⟨_, failed⟩
  · simp [ran]
  · simp [failed]

/-- Boot runs out of steps only in the walk over the memory map. -/
theorem pmmInit_not_outOfFuel {fuel mbi : Nat} {info : Memory} {entries : List MmapEntry}
    (visited : tagEntries info fuel (add64 mbi 8) = some entries) (bitmapAddr : Nat) :
    pmmInit fuel info mbi bitmapAddr ≠ .error .outOfFuel := by
  rw [pmmInit, tagLoop_eq visited]
  rcases foldlM_bounded entries pmmReset with ⟨_, walked, folded⟩ | ⟨_, failed⟩
  · rw [folded, ok_bind]
    -- The page loops have a fixed number of turns.
    have never := boundedBody_bitmapSet.not_outOfFuel
    cases low : reserveRegion walked 0 0x100000 with
    | error halt =>
      intro stopped
      cases stopped
      exact never _ _ _ low
    | ok lowered => exact never _ _ _
  · simp [failed, Bind.bind, Except.bind]

/-- The loops over the boot information have ended after some number of steps.

The allocation of the back buffer is another function's, and is taken to end. -/
def WalksEnd (steps : Nat) (info : Memory) (mbi : Nat) : Prop :=
  (∀ fuel, steps ≤ fuel → ∀ bitmapAddr, pmmInit fuel info mbi bitmapAddr ≠ .error .outOfFuel) ∧
    ∀ fuel, steps ≤ fuel → ∀ kmalloc statics, (∀ size, kmalloc size ≠ .error .outOfFuel) →
      fbInit fuel info kmalloc mbi statics ≠ .error .outOfFuel

/--
The walks over the boot information end.

For every block of a boot loader they end within as many steps as the block has bytes, and every step
from a tag to the next and from an entry to the next strictly advances inside of the block.
-/
theorem boot_walks_end {info : Memory} {mbi total : Nat} (block : BootBlock info mbi total) :
    WalksEnd total info mbi ∧
      ∀ tag, TagReached info mbi tag → read32 info tag ≠ 0 →
        tag < mbiNext info tag ∧ mbiNext info tag + 8 ≤ mbi + total ∧
        (read32 info tag = 6 → ∀ entry, tag + 16 ≤ entry → entry < tag + read32 info (tag + 4) →
          entry < add64 entry (read32 info (tag + 8))) := by
  have fits := block.fits
  have header := block.header
  -- The first tag is eight bytes into the block.
  have start : add64 mbi 8 = mbi + 8 := add64_of_lt (by omega)
  refine ⟨⟨?_, ?_⟩, ?_⟩
  · intro fuel enough bitmapAddr
    obtain ⟨entries, visited⟩ := tagEntries_ends block .first (show mbi + total ≤ add64 mbi 8 + fuel by omega)
    exact pmmInit_not_outOfFuel visited bitmapAddr
  · intro fuel enough kmalloc statics answers stopped
    obtain ⟨size, failed⟩ := fbLoop_ends block .first (by omega) stopped
    exact answers size failed
  · intro tag reached more
    have step := block.advances reached more
    refine ⟨by omega, block.reached_inside (.next reached more), ?_⟩
    exact fun mmap entry low high => block.entry_advances reached mmap low high

/-- The tags of the small memory map are its one tag and the end tag. -/
theorem smallInfo_reached {tag : Nat} (reached : TagReached smallInfo 0x9000 tag) :
    tag = 0x9008 ∨ tag = 0x9030 := by
  -- The tag behind the memory map is the end tag, and nothing is behind that.
  induction reached with
  | first => exact .inl (by decide)
  | next _ more ih =>
    rcases ih with rfl | rfl
    · exact .inr (by decide +kernel)
    · exact absurd (by decide +kernel) more

/-- The small memory map is a good block of 56 bytes. -/
theorem smallInfo_block : BootBlock smallInfo 0x9000 56 where
  fits := by decide
  header := by decide
  -- Two tags are reached: the map of memory and the end.
  sized tag reached more := by
    rcases smallInfo_reached reached with rfl | rfl
    · decide +kernel
    · exact absurd (by decide +kernel) more
  inside tag reached more := by
    rcases smallInfo_reached reached with rfl | rfl
    · decide +kernel
    · exact absurd (by decide +kernel) more
  entries tag reached mmap _ := by
    rcases smallInfo_reached reached with rfl | rfl
    · decide +kernel
    · exact absurd mmap (by decide +kernel)

/-- The walks over the small memory map end within 56 steps. -/
theorem smallInfo_walks_end : WalksEnd 56 smallInfo 0x9000 := (boot_walks_end smallInfo_block).1

/-- Boot information whose first tag has the size zero. -/
def zeroSizeInfo : Memory := write32 (fun _ => 0) 0x9008 1

/-- Boot information whose memory map tag has room for an entry, and the entry size zero. -/
def zeroEntryInfo : Memory := write32 (write32 (fun _ => 0) 0x9008 6) 0x900C 40

/-- A tag of size zero is never left. -/
theorem zeroSize_stuck (fuel : Nat) (pmm : Pmm) :
    tagLoop zeroSizeInfo fuel 0x9008 pmm = .error .outOfFuel := by
  -- The tag is neither the end nor a map, and the next one is the tag itself.
  have type : read32 zeroSizeInfo 0x9008 = 1 := by decide
  have same : mbiNext zeroSizeInfo 0x9008 = 0x9008 := by decide
  induction fuel with
  | zero => simp [tagLoop, type]
  | succ fuel ih =>
    simp only [tagLoop, type, same]
    exact ih

/-- An entry of size zero is never left. -/
theorem zeroEntry_stuck (fuel : Nat) (pmm : Pmm) :
    mmapLoop zeroEntryInfo 0 0x9030 fuel 0x9018 pmm = .error .outOfFuel := by
  -- The entry is of no use, and the next one is the entry itself.
  have type : (readMmapEntry zeroEntryInfo 0x9018).type ≠ 1 := by decide
  have same : add64 0x9018 0 = 0x9018 := by decide
  induction fuel with
  | zero => rfl
  | succ fuel ih =>
    rw [mmapLoop, if_pos (by decide), addMmapEntry, if_pos type, ok_bind, same]
    exact ih

/-- A size of zero keeps the walks in one place for ever, be it that of a tag or that of an entry. -/
theorem zero_size_walks_for_ever :
    ¬ (∃ steps, WalksEnd steps zeroSizeInfo 0x9000) ∧ ¬ ∃ steps, WalksEnd steps zeroEntryInfo 0x9000 := by
  refine ⟨?_, ?_⟩
  · -- No number of steps is enough for either block.
    rintro ⟨steps, ends, _⟩
    apply ends steps (Nat.le_refl _) 0
    rw [pmmInit, show add64 0x9000 8 = 0x9008 by decide, zeroSize_stuck]
    rfl
  · rintro ⟨steps, ends, _⟩
    apply ends (steps + 1) (by omega) 0
    have type : read32 zeroEntryInfo 0x9008 = 6 := by decide
    have size : read32 zeroEntryInfo (0x9008 + 8) = 0 := by decide
    have limit : add64 0x9008 (read32 zeroEntryInfo (0x9008 + 4)) = 0x9030 := by decide
    rw [pmmInit, show add64 0x9000 8 = 0x9008 by decide, tagLoop, if_neg (by omega), if_pos type, size,
      limit, show add64 0x9008 16 = 0x9018 by decide, zeroEntry_stuck]
    rfl

end MiraOS

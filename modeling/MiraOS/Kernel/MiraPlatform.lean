import MiraOS.Arch.PagingMemory
import MiraOS.Kernel.MiraImage

/-! The kernel does what the loader relies on, from boot on. -/

namespace MiraOS

open Machine

/-- The memory of the kernel behind its page tables. -/
def kernelSpace (paging : Paging Pmm) : AddressSpace where
  memory := paging.mem
  translate := fun address =>
    match pagingVirtToPhys pmmAllocPage paging address with
    | .ok place => if place = 0 then none else some place
    | .error _ => none

/-- How the kernel looks to the loader; its managed memory ends at a page. -/
def kernelView (boot : BootTables) (top : Nat) : KernelView (Paging Pmm) where
  space := kernelSpace
  first := 0x100000
  last := top * 4096
  holds := fun taken paging => ∃ tables pages, KernelHolds boot top taken paging tables pages

section

variable {boot : BootTables} {top : Nat} {taken : List Nat} {paging : Paging Pmm} {tables : Tables}
  {pages : Nat → Option Nat}

/-- An address is translated as the abstract map says. -/
theorem kernelSpace_translate (rep : PagingRep paging tables pages) (address : Nat) :
    (kernelSpace paging).translate address =
      if translate pages address = 0 then none else some (translate pages address) := by
  unfold kernelSpace
  dsimp only
  rw [pagingVirtToPhys_rep rep]

/-- Two states with the same abstract map translate in the same way. -/
theorem kernelSpace_congr {other : Paging Pmm} {others : Tables} (rep : PagingRep paging tables pages)
    (same : PagingRep other others pages) : (kernelSpace other).translate = (kernelSpace paging).translate := by
  funext address
  rw [kernelSpace_translate rep, kernelSpace_translate same]

/-- An address of the managed memory stands for itself, if it is mapped. -/
theorem KernelHolds.translate_self (holds : KernelHolds boot top taken paging tables pages)
    {address place : Nat} (low : 0x100000 ≤ address) (high : address < top * 4096)
    (mapped : translate pages address = place) (nonzero : place ≠ 0) : place = address := by
  -- A managed page that is mapped at all is mapped at itself.
  have small := holds.small
  have number : pageNumber address = address / 4096 := Nat.mod_eq_of_lt (by omega)
  rw [translate, number] at mapped
  rcases holds.identity (address / 4096) (by omega) (by omega) with none | self
  · rw [none] at mapped
    exact absurd mapped.symm nonzero
  · rw [self] at mapped
    dsimp only at mapped
    omega

/-- A store to a frame that is kept changes its byte and nothing else. -/
theorem KernelHolds.stored (holds : KernelHolds boot top taken paging tables pages)
    {fuel page address : Nat} {byte : UInt8} {next : Paging Pmm} (member : page ∈ taken)
    (low : page ≤ address) (high : address < page + 4096)
    (stored : (kernelPlatform fuel).storeByte address byte paging = .ok next) :
    (kernelSpace paging).store address byte = some (kernelSpace next) ∧
      KernelHolds boot top taken next tables pages := by
  obtain ⟨-, bottom, ends, -⟩ := holds.frames page member
  obtain ⟨place, found, result⟩ := bind_eq_ok.mp stored
  rw [pagingVirtToPhys_rep holds.reached.rep] at found
  have mapped := Except.ok.inj found
  by_cases zero : place = 0
  · rw [if_pos zero] at result
    cases result
  rw [if_neg zero] at result
  obtain rfl := Except.ok.inj result
  -- The byte lies in the frame, as the address is mapped to itself.
  have self := holds.translate_self (by omega) (by omega) mapped zero
  have offset : page + (address - page) = place := by omega
  have kept := holds.poke member (show address - page < 4096 by omega) byte
  rw [offset] at kept
  refine ⟨?_, kept⟩
  rw [AddressSpace.store, kernelSpace_translate holds.reached.rep, mapped, if_neg zero, Option.map_some]
  have translated := kernelSpace_congr holds.reached.rep kept.reached.rep
  exact congrArg some (AddressSpace.ext rfl translated.symm)

/-- Below the limit of four levels a page has a number of its own. -/
theorem pageNumber_of_lt {address : Nat} (bound : address < 2 ^ 48) : pageNumber address = address / 4096 :=
  Nat.mod_eq_of_lt (by omega)

/-- An address outside the managed memory lies in a page outside of it. -/
theorem Outside.page {address : Nat} (outside : Outside 0x100000 (top * 4096) address) :
    address / 4096 < 256 ∨ top ≤ address / 4096 := by
  -- The bounds are whole pages, so they bound the page numbers as well.
  rcases outside with low | high
  · exact .inl (by omega)
  · exact .inr (by omega)

/-- A page outside the managed memory is mapped to a frame that is kept. -/
theorem KernelHolds.mapsPage (holds : KernelHolds boot top taken paging tables pages) {fuel page virt : Nat}
    {next : Paging Pmm} (member : page ∈ taken) (below : virt < 2 ^ 48)
    (outside : Outside 0x100000 (top * 4096) virt)
    (called : (kernelPlatform fuel).pagingMapPage virt page (pagePresent ||| pageWrite) paging = .ok next) :
    ∃ grown mapped, KernelHolds boot top taken next grown mapped ∧
      (∀ n, n < 256 ∨ top ≤ n →
        mapped n = Function.update pages (pageNumber virt) (some (page / 4096 * 4096)) n) ∧
      ∀ kept ∈ taken, ∀ x, x < 4096 → next.mem (kept + x) = paging.mem (kept + x) := by
  -- The frame was taken from the managed ones, and the page lies outside of them.
  obtain ⟨⟨result, last⟩, mapping, rest⟩ := bind_eq_ok.mp called
  obtain rfl := Except.ok.inj rest
  obtain ⟨-, -, ends, -⟩ := holds.frames page member
  have small := holds.small
  have away : pageNumber virt < 256 ∨ top ≤ pageNumber virt := by
    rw [pageNumber_of_lt below]
    exact outside.page
  exact holds.mapped (by omega) (by decide) away mapping

/-- A page is mapped as an update of the translation. -/
theorem kernelSpace_mapPage {next : Paging Pmm} {grown : Tables} {mapped : Nat → Option Nat}
    {virt page address : Nat} (rep : PagingRep paging tables pages) (after : PagingRep next grown mapped)
    (whole : page % 4096 = 0) (positive : 0 < page) (below : virt < 2 ^ 48) (bound : address < 2 ^ 48)
    (updated : mapped (address / 4096) =
      Function.update pages (pageNumber virt) (some (page / 4096 * 4096)) (address / 4096)) :
    (kernelSpace next).translate address = ((kernelSpace paging).mapPage virt page).translate address := by
  have frame : page / 4096 * 4096 = page := by omega
  rw [pageNumber_of_lt below, frame] at updated
  rw [kernelSpace_translate after, translate, pageNumber_of_lt bound, updated]
  unfold AddressSpace.mapPage
  dsimp only
  -- The address is in the page that is mapped, or translates as before.
  by_cases same : address / 4096 = virt / 4096
  · rw [if_pos same, same, Function.update_self]
    dsimp only
    exact if_neg (by omega)
  · rw [if_neg same, Function.update_of_ne same, kernelSpace_translate rep, translate, pageNumber_of_lt bound]

end

/-- The kernel does what the loader relies on, for the addresses that four levels of tables translate. -/
theorem kernelPlatform_serves (boot : BootTables) {top : Nat} (small : top ≤ 2 ^ 36) (fuel : Nat) :
    Serves (kernelPlatform fuel) (kernelView boot top) (2 ^ 48) where
  -- Each field is what the kernel keeps through the call in question.
  range := by
    show top * 4096 ≤ 2 ^ 64
    omega
  frame := by
    rintro taken paging page ⟨tables, pages, holds⟩ member
    obtain ⟨whole, low, high, -⟩ := holds.frames page member
    exact ⟨whole, low, high⟩
  identity := by
    rintro taken paging address place ⟨tables, pages, holds⟩ low high mapped
    have mapped : (kernelSpace paging).translate address = some place := mapped
    rw [kernelSpace_translate holds.reached.rep] at mapped
    split at mapped
    · -- Null is no place, so that an address without a page reads nothing.
      cases mapped
    · rename_i nonzero
      exact holds.translate_self low high (Option.some.inj mapped) (Option.some.inj mapped ▸ nonzero)
  alloc := by
    rintro taken paging page next ⟨tables, pages, holds⟩ allocated nonzero
    obtain ⟨⟨frame, pmm⟩, taking, result⟩ := bind_eq_ok.mp allocated
    cases result
    obtain ⟨new, -, kept⟩ := holds.alloc taking nonzero
    refine ⟨new, ⟨tables, pages, kept⟩, ?_⟩
    exact AddressSpace.ext rfl (kernelSpace_congr holds.reached.rep kept.reached.rep)
  store := by
    rintro taken paging page address byte next ⟨tables, pages, holds⟩ member low high stored
    obtain ⟨changed, kept⟩ := holds.stored member low high stored
    exact ⟨changed, tables, pages, kept⟩
  map := by
    rintro taken paging page virt next ⟨tables, pages, holds⟩ member - below outside called
    obtain ⟨whole, bottom, -⟩ := holds.frames page member
    obtain ⟨grown, mapped, kept, updated, memory⟩ := holds.mapsPage member below outside called
    refine ⟨fun address bound outside => ?_, memory, grown, mapped, kept⟩
    exact kernelSpace_mapPage holds.reached.rep kept.reached.rep whole (by omega) below bound
      (updated _ outside.page)

/--
What holds of the kernel while pages may be mapped over the managed memory.

An address of the managed memory stands for itself, or for a frame that was taken if a page was mapped there.
-/
structure KernelMoved (boot : BootTables) (top : Nat) (taken moved : List Nat) (paging : Paging Pmm)
    (tables : Tables) (pages : Nat → Option Nat) : Prop where
  kept : KernelFrames boot top ∅ taken paging tables pages
  lands : ∀ n, 256 ≤ n → n < top →
    pages n = none ∨ pages n = some (n * 4096) ∨ n ∈ moved ∧ ∃ page ∈ taken, pages n = some page

/-- How the kernel looks to a loader that may map pages over the managed memory. -/
def kernelLoaderView (boot : BootTables) (top : Nat) : LoaderView (Paging Pmm) where
  space := kernelSpace
  holds := fun taken moved paging => ∃ tables pages, KernelMoved boot top taken moved paging tables pages

section

variable {boot : BootTables} {top : Nat} {spare : Finset Nat} {taken moved : List Nat}
  {paging next : Paging Pmm} {tables : Tables} {pages : Nat → Option Nat} {page fuel : Nat}

/-- A store to a frame ends up in a frame that was taken, if the page of the frame leads to one. -/
theorem KernelFrames.store (kept : KernelFrames boot top spare taken paging tables pages) {x : Nat}
    {byte : UInt8} (member : page ∈ taken) (small : x < 4096)
    (lands : pages (page / 4096) = none ∨ ∃ frame ∈ taken, pages (page / 4096) = some frame)
    (stored : (kernelPlatform fuel).storeByte (page + x) byte paging = .ok next) :
    ∃ frame ∈ taken, (kernelSpace paging).translate (page + x) = some (frame + x) ∧
      next = { paging with mem := Function.update paging.mem (frame + x) byte } := by
  obtain ⟨whole, low, high, -⟩ := kept.frames page member
  have limit := kept.small
  have number : pageNumber (page + x) = page / 4096 := by
    rw [pageNumber_of_lt (by omega)]
    omega
  have offset : (page + x) % 4096 = x := by omega
  obtain ⟨place, found, result⟩ := bind_eq_ok.mp stored
  rw [pagingVirtToPhys_rep kept.reached.rep] at found
  have found := Except.ok.inj found
  rw [kernelSpace_translate kept.reached.rep, found]
  rw [translate, number, offset] at found
  -- Without a mapping the store would have failed.
  rcases lands with none | ⟨frame, among, there⟩
  · rw [none] at found
    subst found
    cases result
  · rw [there] at found
    dsimp only at found
    subst found
    obtain ⟨-, above, -⟩ := kept.frames frame among
    rw [if_neg (by omega)] at result ⊢
    exact ⟨frame, among, rfl, (Except.ok.inj result).symm⟩

/-- The page of a frame that was taken leads to a frame that was taken. -/
theorem KernelMoved.leads (held : KernelMoved boot top taken moved paging tables pages) (member : page ∈ taken) :
    pages (page / 4096) = none ∨ ∃ frame ∈ taken, pages (page / 4096) = some frame := by
  obtain ⟨whole, low, high, -⟩ := held.kept.frames page member
  have own : page / 4096 * 4096 = page := by omega
  -- A page that was taken is mapped at itself, at one of those taken, or not at all.
  rcases held.lands (page / 4096) (by omega) (by omega) with none | same | ⟨-, onto⟩
  · exact .inl none
  · exact .inr ⟨page, member, same.trans (congrArg some own)⟩
  · exact .inr onto

/-- A page is mapped to a frame that was taken, wherever the page lies. -/
theorem KernelMoved.map (held : KernelMoved boot top taken moved paging tables pages) {virt : Nat}
    (member : page ∈ taken) (below : virt < 2 ^ 48)
    (called : (kernelPlatform fuel).pagingMapPage virt page (pagePresent ||| pageWrite) paging = .ok next) :
    ∃ grown mapped, KernelMoved boot top taken (virt / 4096 :: moved) next grown mapped ∧
      (∀ n, n < 256 ∨ top ≤ n ∨ n = pageNumber virt →
        mapped n = Function.update pages (pageNumber virt) (some (page / 4096 * 4096)) n) ∧
      ∀ kept ∈ taken, ∀ x, x < 4096 → next.mem (kept + x) = paging.mem (kept + x) := by
  obtain ⟨⟨result, last⟩, mapping, rest⟩ := bind_eq_ok.mp called
  obtain rfl := Except.ok.inj rest
  obtain ⟨whole, -, ends, -⟩ := held.kept.frames page member
  have small := held.kept.small
  have frame : page / 4096 * 4096 = page := by omega
  have number := pageNumber_of_lt below
  obtain ⟨middle, grown, made, grows, -, kept, memory⟩ :=
    held.kept.mapped (by omega) (by decide) mapping (Finset.empty_subset _)
  refine ⟨grown, _, ⟨kept, fun n low high => ?_⟩, fun n apart => ?_, memory⟩
  · by_cases here : n = pageNumber virt
    · rw [here, Function.update_self, frame, number]
      exact .inr (.inr ⟨List.mem_cons_self, page, member, rfl⟩)
    · rw [Function.update_of_ne here]
      -- A frame that became a table was mapped at its own address.
      rcases grows.pages n with same | ⟨-, own⟩
      · rw [same]
        rcases held.lands n low high with none | own | ⟨onto, there⟩
        · exact .inl none
        · exact .inr (.inl own)
        · exact .inr (.inr ⟨List.mem_cons_of_mem _ onto, there⟩)
      · exact .inr (.inl own)
  · by_cases here : n = pageNumber virt
    · rw [here, Function.update_self, Function.update_self]
    · rw [Function.update_of_ne here, Function.update_of_ne here]
      rcases grows.pages n with same | ⟨free, -⟩
      · exact same
      · have bounds := held.kept.free_bounds free
        omega

end

/-- The kernel does what a loader relies on that may map pages over the managed memory. -/
theorem kernelPlatform_servesPages (boot : BootTables) {top : Nat} (small : top ≤ 2 ^ 36) (fuel : Nat) :
    ServesPages (kernelPlatform fuel) (kernelLoaderView boot top) 256 top (2 ^ 48) where
  range := by omega
  frame := by
    rintro taken moved paging page ⟨tables, pages, held⟩ member
    obtain ⟨whole, low, high, -⟩ := held.kept.frames page member
    exact ⟨whole, low, high⟩
  identity := by
    rintro taken moved paging address place ⟨tables, pages, held⟩ low high apart mapped
    have mapped : (kernelSpace paging).translate address = some place := mapped
    rw [kernelSpace_translate held.kept.reached.rep, translate, pageNumber_of_lt (by omega)] at mapped
    -- No page was mapped there, so the address stands for itself if for anything.
    rcases held.lands (address / 4096) (by omega) (by omega) with none | own | ⟨onto, -⟩
    · rw [none] at mapped
      cases mapped
    · rw [own] at mapped
      dsimp only at mapped
      split at mapped
      · cases mapped
      · have same := Option.some.inj mapped
        omega
    · exact absurd onto apart
  -- A frame taken from the allocator was free, so it is none of those taken before.
  alloc := by
    rintro taken moved paging page next ⟨tables, pages, held⟩ allocated nonzero
    obtain ⟨⟨frame, pmm⟩, taking, result⟩ := bind_eq_ok.mp allocated
    cases result
    obtain ⟨new, -, kept, -⟩ := held.kept.alloc taking (Finset.empty_subset _) nonzero
    refine ⟨new, ⟨tables, pages, kept, fun n low high => ?_⟩, ?_⟩
    · rcases held.lands n low high with none | own | ⟨onto, other, member, there⟩
      · exact .inl none
      · exact .inr (.inl own)
      · exact .inr (.inr ⟨onto, other, List.mem_cons_of_mem _ member, there⟩)
    · exact AddressSpace.ext rfl (kernelSpace_congr held.kept.reached.rep kept.reached.rep)
  -- The store lands in one of the frames that were taken, and the page map stays.
  store := by
    rintro taken moved paging page address byte next ⟨tables, pages, held⟩ member low high stored
    have offset : page + (address - page) = address := by omega
    rw [← offset] at stored
    obtain ⟨frame, among, mapped, rfl⟩ :=
      held.kept.store member (show address - page < 4096 by omega) (held.leads member) stored
    rw [offset] at mapped
    have kept := held.kept.poke among (show address - page < 4096 by omega) byte
    refine ⟨?_, tables, pages, kept, held.lands⟩
    show (kernelSpace paging).store address byte = _
    rw [AddressSpace.store, mapped, Option.map_some]
    have translated := kernelSpace_congr held.kept.reached.rep kept.reached.rep
    exact congrArg some (AddressSpace.ext rfl translated.symm)
  -- The frame is mapped at its page, and pages outside the frames change nothing else.
  map := by
    rintro taken moved paging page virt next ⟨tables, pages, held⟩ member below called
    obtain ⟨whole, bottom, -⟩ := held.kept.frames page member
    obtain ⟨grown, mapped, after, updated, memory⟩ := held.map member below called
    refine ⟨fun address bound apart => ?_, memory, grown, mapped, after⟩
    refine kernelSpace_mapPage held.kept.reached.rep after.kept.reached.rep whole (by omega) below bound
      (updated _ ?_)
    rw [pageNumber_of_lt below]
    rcases apart with (before | behind) | same
    · exact .inl (by omega)
    · exact .inr (.inl (by omega))
    · exact .inr (.inr same)

section

variable {boot : BootTables} {top : Nat} {taken : List Nat} {paging : Paging Pmm} {tables : Tables}
  {pages : Nat → Option Nat}

/-- Filling a frame that is mapped at its own address succeeds, and changes memory only. -/
theorem KernelHolds.memset_ok (holds : KernelHolds boot top taken paging tables pages) {page : Nat}
    (member : page ∈ taken) (mapped : pages (page / 4096) = some page) (val : UInt8) (fuel : Nat)
    {count i : Nat} (room : i + count ≤ 4096) :
    ∃ mem, memset (kernelPlatform fuel) page val count i paging = .ok { paging with mem := mem } ∧
      KernelHolds boot top taken { paging with mem := mem } tables pages := by
  -- Over the bytes that are left, each of which leaves the frames as they are.
  induction count generalizing i paging with
  | zero => exact ⟨paging.mem, rfl, holds⟩
  | succ count ih =>
    obtain ⟨whole, low, high, -⟩ := holds.frames page member
    have small := holds.small
    have number : pageNumber (page + i) = page / 4096 := by
      rw [pageNumber_of_lt (by omega)]
      omega
    have place : translate pages (page + i) = page + i := by
      rw [translate, number, mapped]
      dsimp only
      omega
    -- The byte is stored at its own address, and the others follow.
    have stored : (kernelPlatform fuel).storeByte (add64 page i) val paging =
        .ok { paging with mem := Function.update paging.mem (page + i) val } := by
      rw [add64_of_lt (by omega), kernelPlatform]
      dsimp only
      rw [pagingVirtToPhys_rep holds.reached.rep, place, ok_bind, if_neg (by omega)]
      rfl
    obtain ⟨mem, rest, kept⟩ := ih (holds.poke member (show i < 4096 by omega) val)
      (show i + 1 + count ≤ 4096 by omega)
    exact ⟨mem, bind_eq_ok.mpr ⟨_, stored, rest⟩, kept⟩

/-- A page without bytes of the container is filled and mapped, if the table of its address is there. -/
theorem KernelHolds.fillPage_ok (holds : KernelHolds boot top taken paging tables pages) {page : Nat}
    (member : page ∈ taken) (mapped : pages (page / 4096) = some page) {sd : MiraSectDesc} {j pt : Nat}
    (behind : sd.filesz ≤ j) (here : tables (tablePath (add64 sd.vaddr j)) = some pt) (fuel : Nat)
    (file : List UInt8) :
    ∃ mem, fillPage (kernelPlatform (fuel + 1)) file sd (pagePresent ||| pageWrite) j page paging =
        .ok { paging with mem := mem } ∧
      PagingRep { paging with mem := mem } tables
        (Function.update pages (pageNumber (add64 sd.vaddr j)) (some page)) := by
  obtain ⟨whole, low, high, -⟩ := holds.frames page member
  have small := holds.small
  obtain ⟨cleared, zeroed, kept⟩ := holds.memset_ok member mapped 0 (fuel + 1) (show 0 + 4096 ≤ 4096 by omega)
  -- Behind the bytes of the section nothing is copied.
  have copied : copyPart (kernelPlatform (fuel + 1)) file sd j page { paging with mem := cleared } =
      .ok { paging with mem := cleared } := if_neg (by omega)
  have rep := kept.reached.rep
  obtain ⟨fits, framed⟩ := frameOf_leafValue (show page < 2 ^ 64 by omega)
    (show pagePresent ||| pageWrite < 4096 by decide)
  have frame : page / 4096 * 4096 = page := by omega
  -- The last table is there, so mapping the page is writing one entry.
  have leaf := rep.setLeaf (add64 sd.vaddr j) here fits
  rw [framed, frame] at leaf
  refine ⟨_, ?_, leaf⟩
  rw [fillPage, onPlatform_ok.mpr zeroed, ok_bind, copied, ok_bind, onPlatform_ok, kernelPlatform]
  dsimp only
  rw [pagingMapPage_present rep.tree rep.root page (pagePresent ||| pageWrite) here]
  rfl

end

/-- After boot, with free frames in the first two megabytes only, the kernel is ready for the loader. -/
theorem kernelHolds_boot {boot : BootTables} {mem : Memory} {pmm : Pmm} (cleared : ClearedBss mem boot)
    (booted : BootedPmm pmm) (small : pmm.memEnd / pageSize ≤ 2 ^ 36)
    (low : ∀ page ∈ managedFree pmm, page < 512 ∧ page * pageSize ∉ boot.all) :
    KernelHolds boot (pmm.memEnd / pageSize) [] (pagingInit boot mem pmm) (bootTree boot) bootPages := by
  refine ⟨framesReached_boot cleared booted, fun page free => ?_, fun n _ _ => ?_, nofun, Nat.le_refl _,
    small⟩
  · obtain ⟨below, notBoot⟩ := low page free
    refine ⟨notBoot, boot.pt, ?_⟩
    -- The path of a low frame leads to the last of the boot tables.
    rw [(tablePath_low (by simp only [pageNumber, pageSize]; omega)).1]
    rfl
  · by_cases low : n < 512
    · exact .inr (if_pos low)
    · exact .inl (if_neg low)

/--
A container that the booted kernel has loaded is in memory as its sections say.

Its free frames lie in the first two megabytes, which are mapped from boot on, and the sections outside
the managed memory.
-/
theorem kernel_image_correct {bootFuel mbi bitmapAddr tables fuel type : Nat} {info mem : Memory} {pmm : Pmm}
    {boot : BootTables} {file : List UInt8} {image : MiraLoadedImage} {next : Paging Pmm}
    (booted : pmmInit bootFuel info mbi bitmapAddr = .ok pmm) (cleared : ClearedBss mem boot)
    (small : pmm.memEnd / pageSize ≤ 2 ^ 36)
    (low : ∀ page ∈ managedFree pmm, page < 512 ∧ page * pageSize ∉ boot.all)
    (sections : LoadableSections file 0x100000 (pmm.memEnd / pageSize * 4096) (2 ^ 48))
    (loaded : miraLoad (kernelPlatform tables) fuel file type (pagingInit boot mem pmm) =
      .ok (some image, next)) :
    image.entryPoint = (headerOf file).entryPoint ∧ ∀ i, i < (headerOf file).sectCount →
      ∃ sd, readSectDesc file (headerOf file).sectTableOff i = .ok sd ∧ ∀ k, k < sd.memsz →
        (kernelSpace next).read (sd.vaddr + k) =
          if k < sd.filesz then file[sd.fileOff + k]? else some 0 := by
  have holds := kernelHolds_boot cleared (bootedPmm_init booted) small low
  exact (kernelPlatform_serves boot small tables).load_displays (by omega) sections ⟨_, _, holds⟩ loaded

/-- A page allocator with a single free page. -/
def onePagePmm : Pmm :=
  { pmmReset with
    pageBitmap := pmmReset.pageBitmap.clear 256
    totalPages := 1
    freePages := 1
    memEnd := 0x101000 }

/-- A kernel that was booted with that page. -/
def onePageKernel : Paging Pmm := pagingInit smallBootTables (fun _ => 0) onePagePmm

/-- The free page is the first one above one megabyte. -/
theorem onePagePmm_clear {page : Nat} : onePagePmm.pageBitmap.test page = false ↔ page = 256 := by
  -- All pages are used but 256.
  rw [onePagePmm]
  dsimp only
  rw [Bitmap.test_clear, pmmReset_used, Bool.and_true]
  simp

/-- That page allocator is one after boot, and its page is in the first two megabytes. -/
theorem onePagePmm_booted : BootedPmm onePagePmm ∧
    ∀ page ∈ managedFree onePagePmm, page < 512 ∧ page * pageSize ∉ smallBootTables.all := by
  -- The only clear bit is that of page 256, which is below the limits.
  have booted : BootedPmm onePagePmm := by
    refine ⟨rfl, fun page clear => ?_⟩
    rw [onePagePmm_clear.mp clear]
    decide
  refine ⟨booted, fun page free => ?_⟩
  obtain rfl := onePagePmm_clear.mp (booted.mem_managedFree.mp free).2.2
  decide

/-- That kernel is ready for the loader. -/
theorem onePageKernel_holds :
    KernelHolds smallBootTables 257 [] onePageKernel (bootTree smallBootTables) bootPages :=
  kernelHolds_boot cleared_zero onePagePmm_booted.1 (by decide) onePagePmm_booted.2

/-- The page is handed out, and there is none after it. -/
theorem onePagePmm_alloc : pmmAllocPage onePagePmm = .ok (0x100000, onePagePmm.take 256) ∧
    pmmAllocPage (onePagePmm.take 256) = .ok (0, onePagePmm.take 256) :=
  ⟨rfl, rfl⟩

/--
The page is taken for a section without bytes of the container in the first two megabytes.

From then on its address stands for that page.
-/
theorem onePageKernel_turn {sd : MiraSectDesc} (low : sd.vaddr < 0x200000) (memory : 0 < sd.memsz)
    (blank : sd.filesz = 0) (file : List UInt8) :
    ∃ last tables, last.pmm = onePagePmm.take 256 ∧
      PagingRep last tables (Function.update bootPages (sd.vaddr / 4096) (some 0x100000)) ∧
      ∀ flags fuel, flags ||| pageWrite = pagePresent ||| pageWrite →
        MiraExec.pageLoop (kernelPlatform 1) file sd flags (fuel + 1) 0 onePageKernel =
          MiraExec.pageLoop (kernelPlatform 1) file sd flags fuel 4096 last := by
  have place : add64 sd.vaddr 0 = sd.vaddr := add64_of_lt (by omega)
  have number : pageNumber sd.vaddr = sd.vaddr / 4096 := pageNumber_of_lt (by omega)
  -- The tables of the first two megabytes are there from boot on.
  have here : bootTree smallBootTables (tablePath (add64 sd.vaddr 0)) = some smallBootTables.pt := by
    rw [place, (tablePath_low (by omega)).1]
    rfl
  obtain ⟨-, -, holds⟩ := onePageKernel_holds.alloc onePagePmm_alloc.1 (by decide)
  obtain ⟨mem, filled, rep⟩ := holds.fillPage_ok List.mem_cons_self rfl (Nat.le_of_eq blank) here 0 file
  rw [place, number] at rep
  refine ⟨_, _, rfl, rep, fun flags fuel both => ?_⟩
  have allocated : (kernelPlatform 1).pmmAllocPage onePageKernel =
      .ok (0x100000, { onePageKernel with pmm := onePagePmm.take 256 }) := rfl
  rw [pageLoop_turn memory, allocated, onPlatform_ok.mpr rfl, ok_bind, both]
  dsimp only
  rw [if_neg (by decide), filled]
  rfl

end MiraOS

import MiraOS.Kernel.MiraReads
import MiraOS.Machine.AddressSpace

/-! What the memory shows of a container that was loaded. -/

namespace MiraOS

open Machine

/-- An address is none of a range. -/
def Outside (first last address : Nat) : Prop := address < first ∨ last ≤ address

/-- How the state of a kernel looks to the loader. -/
structure KernelView (σ : Type) where
  -- Memory, and the translation of addresses.
  space : σ → AddressSpace
  -- The range of the frames that the page allocator manages.
  first : Nat
  last : Nat
  -- What holds of a state in which the loader has taken some frames.
  holds : List Nat → σ → Prop

/--
What the loader relies on, for addresses below a limit.

The page allocator hands out distinct frames of its range, and mapping a page updates the translation.
-/
structure Serves {σ : Type} (platform : Platform σ) (view : KernelView σ) (limit : Nat) : Prop where
  range : view.last ≤ 2 ^ 64
  frame : ∀ {taken state page}, view.holds taken state → page ∈ taken →
    page % 4096 = 0 ∧ view.first ≤ page ∧ page + 4096 ≤ view.last
  -- A frame is accessed at its own address.
  identity : ∀ {taken state address place}, view.holds taken state → view.first ≤ address →
    address < view.last → (view.space state).translate address = some place → place = address
  -- A frame that is handed out is a new one.
  alloc : ∀ {taken state page next}, view.holds taken state →
    platform.pmmAllocPage state = .ok (page, next) → page ≠ 0 →
    page ∉ taken ∧ view.holds (page :: taken) next ∧ view.space next = view.space state
  store : ∀ {taken state page address byte next}, view.holds taken state → page ∈ taken →
    page ≤ address → address < page + 4096 → platform.storeByte address byte state = .ok next →
    (view.space state).store address byte = some (view.space next) ∧ view.holds taken next
  -- Tables may be made, but not from frames that the loader has taken.
  map : ∀ {taken state page virt next}, view.holds taken state → page ∈ taken → virt % 4096 = 0 →
    virt < limit → Outside view.first view.last virt →
    platform.pagingMapPage virt page (pagePresent ||| pageWrite) state = .ok next →
    (∀ address, address < limit → Outside view.first view.last address →
      (view.space next).translate address = ((view.space state).mapPage virt page).translate address) ∧
    (∀ kept ∈ taken, ∀ place, place < 4096 →
      (view.space next).memory (kept + place) = (view.space state).memory (kept + place)) ∧
    view.holds taken next

/-- How the state of a kernel looks to a loader that may map pages over the frames themselves. -/
structure LoaderView (σ : Type) where
  -- Memory, and the translation of addresses.
  space : σ → AddressSpace
  -- What holds of a state in which the loader has taken some frames and mapped some pages.
  holds : List Nat → List Nat → σ → Prop

/--
What the loader relies on, for addresses below a limit, wherever it maps its pages.

The page allocator hands out distinct frames from a first page on and in front of a last one. Mapping a page
updates the translation of that page and of the addresses outside the frames.
-/
structure ServesPages {σ : Type} (platform : Platform σ) (view : LoaderView σ) (first last limit : Nat) :
    Prop where
  range : last ≤ 2 ^ 52
  frame : ∀ {taken moved state page}, view.holds taken moved state → page ∈ taken →
    page % 4096 = 0 ∧ first * 4096 ≤ page ∧ page + 4096 ≤ last * 4096
  -- A frame is accessed at its own address, until a page is mapped there.
  identity : ∀ {taken moved state address place}, view.holds taken moved state → first * 4096 ≤ address →
    address < last * 4096 → address / 4096 ∉ moved → (view.space state).translate address = some place →
    place = address
  -- A frame that is handed out is a new one.
  alloc : ∀ {taken moved state page next}, view.holds taken moved state →
    platform.pmmAllocPage state = .ok (page, next) → page ≠ 0 →
    page ∉ taken ∧ view.holds (page :: taken) moved next ∧ view.space next = view.space state
  store : ∀ {taken moved state page address byte next}, view.holds taken moved state → page ∈ taken →
    page ≤ address → address < page + 4096 → platform.storeByte address byte state = .ok next →
    (view.space state).store address byte = some (view.space next) ∧ view.holds taken moved next
  -- Tables may be made, but not from frames that the loader has taken.
  map : ∀ {taken moved state page virt next}, view.holds taken moved state → page ∈ taken → virt < limit →
    platform.pagingMapPage virt page (pagePresent ||| pageWrite) state = .ok next →
    (∀ address, address < limit →
      Outside (first * 4096) (last * 4096) address ∨ address / 4096 = virt / 4096 →
      (view.space next).translate address = ((view.space state).mapPage virt page).translate address) ∧
    (∀ kept ∈ taken, ∀ place, place < 4096 →
      (view.space next).memory (kept + place) = (view.space state).memory (kept + place)) ∧
    view.holds taken (virt / 4096 :: moved) next

/-- The view of such a kernel as long as no page was mapped over the frames. -/
def LoaderView.apart {σ : Type} (view : LoaderView σ) (first last : Nat) : KernelView σ where
  space := view.space
  first := first * 4096
  last := last * 4096
  holds := fun taken state => ∃ moved, (∀ n ∈ moved, n < first ∨ last ≤ n) ∧ view.holds taken moved state

/-- Such a kernel serves a loader that maps its pages outside of the frames. -/
theorem ServesPages.serves {σ : Type} {platform : Platform σ} {view : LoaderView σ} {first last limit : Nat}
    (serves : ServesPages platform view first last limit) :
    Serves platform (view.apart first last) limit where
  range := by
    have range := serves.range
    show last * 4096 ≤ 2 ^ 64
    omega
  frame := by
    rintro taken state page ⟨moved, -, holds⟩ member
    exact serves.frame holds member
  identity := by
    rintro taken state address place ⟨moved, away, holds⟩ low high mapped
    have low : first * 4096 ≤ address := low
    have high : address < last * 4096 := high
    refine serves.identity holds low high (fun onto => ?_) mapped
    -- A page that was mapped is none of the frames.
    rcases away _ onto with before | behind
    · omega
    · omega
  alloc := by
    rintro taken state page next ⟨moved, away, holds⟩ allocated nonzero
    obtain ⟨fresh, held, same⟩ := serves.alloc holds allocated nonzero
    exact ⟨fresh, ⟨moved, away, held⟩, same⟩
  store := by
    rintro taken state page address byte next ⟨moved, away, holds⟩ member low high stored
    obtain ⟨changed, held⟩ := serves.store holds member low high stored
    exact ⟨changed, moved, away, held⟩
  -- The page that is mapped lies outside the range of the frames, as every page before.
  map := by
    rintro taken state page virt next ⟨moved, away, holds⟩ member - below outside called
    obtain ⟨translated, kept, held⟩ := serves.map holds member below called
    refine ⟨fun address bound apart => translated address bound (.inl apart), kept, _, fun n among => ?_, held⟩
    rcases List.mem_cons.mp among with rfl | before
    · rcases outside with low | high
      · have low : virt < first * 4096 := low
        exact .inl (by omega)
      · have high : last * 4096 ≤ virt := high
        exact .inr (by omega)
    · exact away n before

/-- The byte of a section at an offset: one of the container, or a zero behind them. -/
def sectionByte (file : List UInt8) (sd : MiraSectDesc) (k : Nat) : UInt8 :=
  if k < sd.filesz then file.getD (sd.fileOff + k) 0 else 0

/-- A section can be loaded to its place in memory. -/
structure Placed (first last limit : Nat) (sd : MiraSectDesc) : Prop where
  aligned : sd.vaddr % 4096 = 0
  memoryEnd : sd.vaddr + sd.memsz ≤ limit
  fileEnd : sd.fileOff + sd.filesz < 2 ^ 64
  outside : ∀ k, k < sd.memsz → Outside first last (sd.vaddr + k)

/-- The bytes that a part of a section shows, from an offset on and up to another one. -/
def sectionArea (file : List UInt8) (sd : MiraSectDesc) (low high address : Nat) (byte : UInt8) : Prop :=
  ∃ k, low ≤ k ∧ k < high ∧ k < sd.memsz ∧ address = sd.vaddr + k ∧ byte = sectionByte file sd k

/-- The bytes that the first sections of a container show. -/
def loadedArea (file : List UInt8) (count address : Nat) (byte : UInt8) : Prop :=
  ∃ i sd, i < count ∧ readSectDesc file (headerOf file).sectTableOff i = .ok sd ∧
    sectionArea file sd 0 sd.memsz address byte

/-- Some addresses show their bytes, in frames that the loader has taken. -/
structure Displays {σ : Type} (view : KernelView σ) (limit : Nat) (taken : List Nat) (state : σ)
    (area : Nat → UInt8 → Prop) : Prop where
  holds : view.holds taken state
  usable : ∀ {address byte}, area address byte → address < limit ∧ Outside view.first view.last address
  visible : ∀ {address byte}, area address byte → (view.space state).Shows taken address byte

/-- Two sections have no page in common. -/
def PagesApart (sd other : MiraSectDesc) : Prop :=
  ∀ k, k < sd.memsz → ∀ l, l < other.memsz → (sd.vaddr + k) / 4096 ≠ (other.vaddr + l) / 4096

section

variable {σ : Type} {platform : Platform σ} {view : KernelView σ} {limit : Nat} {file : List UInt8}
  {sd : MiraSectDesc} {taken : List Nat} {page : Nat} {state next : σ}

/-- A store to a frame that was taken changes the byte at that place. -/
theorem Serves.storeFrame (serves : Serves platform view limit) {x : Nat} {byte : UInt8}
    (holds : view.holds taken state) (member : page ∈ taken) (small : x < 4096)
    (stored : platform.storeByte (add64 page x) byte state = .ok next) :
    view.space next = { view.space state with
      memory := Function.update (view.space state).memory (page + x) byte } ∧
    view.holds taken next := by
  obtain ⟨-, low, high⟩ := serves.frame holds member
  have range := serves.range
  rw [add64_of_lt (by omega)] at stored
  obtain ⟨changed, kept⟩ := serves.store holds member (by omega) (by omega) stored
  refine ⟨?_, kept⟩
  -- The address is mapped, and then to itself.
  obtain ⟨place, mapped, same⟩ := Option.map_eq_some_iff.mp changed
  rw [serves.identity holds (by omega) (by omega) mapped] at same
  exact same.symm

/-- Filling memory fills the places of a frame. -/
theorem Serves.memset_fills (serves : Serves platform view limit) {val : UInt8} {count i : Nat}
    (holds : view.holds taken state) (member : page ∈ taken) (room : i + count ≤ 4096)
    (ran : memset platform page val count i state = .ok next) :
    view.space next = (view.space state).fill (page + i) count (fun _ => val) ∧
      view.holds taken next := by
  -- Induction on the bytes: each store goes to the next place of the page.
  induction count generalizing i state with
  | zero =>
    cases ran
    exact ⟨(AddressSpace.fill_zero ..).symm, holds⟩
  | succ count ih =>
    obtain ⟨middle, stored, rest⟩ := bind_eq_ok.mp ran
    obtain ⟨changed, kept⟩ := serves.storeFrame holds member (by omega) stored
    obtain ⟨filled, still⟩ := ih kept (by omega) rest
    refine ⟨?_, still⟩
    rw [filled, changed, ← AddressSpace.fill_succ]
    rfl

/-- Copying from the container fills the places of a frame with its bytes. -/
theorem Serves.copySection_fills (serves : Serves platform view limit) {source count k : Nat}
    (holds : view.holds taken state) (member : page ∈ taken) (room : k + count ≤ 4096)
    (word : source + k + count ≤ 2 ^ 64)
    (ran : copySection platform file source page count k state = .ok next) :
    view.space next = (view.space state).fill (page + k) count (fun x => file.getD (source + k + x) 0) ∧
      view.holds taken next := by
  induction count generalizing k state with
  | zero =>
    cases ran
    exact ⟨(AddressSpace.fill_zero ..).symm, holds⟩
  | succ count ih =>
    obtain ⟨byte, read, copied⟩ := bind_eq_ok.mp ran
    obtain ⟨middle, stored, rest⟩ := bind_eq_ok.mp copied
    obtain ⟨changed, kept⟩ := serves.storeFrame holds member (by omega) (onPlatform_ok.mp stored)
    obtain ⟨filled, still⟩ := ih kept (by omega) (by omega) rest
    refine ⟨?_, still⟩
    -- The byte that was read is the first of those that are filled.
    rw [add64_of_lt (by omega)] at read
    have first : byte = file.getD (source + k + 0) 0 := by
      rw [readByte] at read
      split at read
      · rename_i value found
        cases read
        rw [Nat.add_zero, List.getD_eq_getElem?_getD, found, Option.getD_some]
      · cases read
    have offset : ∀ x, source + (k + 1) + x = source + k + (x + 1) := by
      intro x
      omega
    rw [filled, changed, first, ← AddressSpace.fill_succ]
    simp only [offset]
    rfl

/-- Copying the part of a section that belongs to a page, none of it behind the end. -/
theorem copyPart_eq (platform : Platform σ) (j : Nat) (state : σ) :
    copyPart platform file sd j page state =
      copySection platform file (add64 sd.fileOff j) page (min (sd.filesz - j) 4096) 0 state := by
  unfold copyPart
  -- Behind the part of the file nothing is copied, as a copy of no bytes.
  by_cases part : j < sd.filesz
  · rw [if_pos part]
  · have none : min (sd.filesz - j) 4096 = 0 := by omega
    rw [if_neg part, none]
    rfl

/-- A page that was filled holds its part of the section, and its address stands for it. -/
theorem Serves.fillPage_fills (serves : Serves platform view limit) {j : Nat} (holds : view.holds taken state)
    (member : page ∈ taken) (placed : Placed view.first view.last limit sd) (whole : j % 4096 = 0)
    (inside : j < sd.memsz) (small : limit ≤ 2 ^ 64)
    (ran : fillPage platform file sd (pagePresent ||| pageWrite) j page state = .ok next) :
    view.holds taken next ∧
    (∀ x, x < 4096 → (view.space next).memory (page + x) = sectionByte file sd (j + x)) ∧
    (∀ kept ∈ taken, kept ≠ page → ∀ x, x < 4096 →
      (view.space next).memory (kept + x) = (view.space state).memory (kept + x)) ∧
    ∀ address, address < limit → Outside view.first view.last address →
      (view.space next).translate address =
        ((view.space state).mapPage (sd.vaddr + j) page).translate address := by
  have fileEnd := placed.fileEnd
  have memoryEnd := placed.memoryEnd
  have aligned := placed.aligned
  obtain ⟨cleared, zeroed, copied⟩ := bind_eq_ok.mp ran
  obtain ⟨filled, copy, mapped⟩ := bind_eq_ok.mp copied
  rw [onPlatform_ok] at zeroed mapped
  rw [add64_of_lt (by omega)] at mapped
  rw [copyPart_eq] at copy
  obtain ⟨zeros, held⟩ := serves.memset_fills holds member (by omega) zeroed
  -- The copied part starts where the file offset says, without wrapping.
  have start : j < sd.filesz → add64 sd.fileOff j = sd.fileOff + j := fun part => add64_of_lt (by omega)
  have word : add64 sd.fileOff j + 0 + min (sd.filesz - j) 4096 ≤ 2 ^ 64 := by
    by_cases part : j < sd.filesz
    · rw [start part]
      omega
    · have wrapped : add64 sd.fileOff j < 2 ^ 64 := Nat.mod_lt _ (by omega)
      omega
  obtain ⟨bytes, still⟩ := serves.copySection_fills held member (by omega) word copy
  obtain ⟨translated, kept, last⟩ := serves.map still member (by omega) (by omega)
    (placed.outside j inside) mapped
  simp only [Nat.add_zero] at zeros bytes
  rw [bytes, zeros] at translated kept
  refine ⟨last, fun x bound => ?_, fun other among apart x bound => ?_, translated⟩
  · rw [kept page member x bound, sectionByte]
    -- The bytes of the container come first, and the zeros are left behind them.
    by_cases copied : x < min (sd.filesz - j) 4096
    · have place : add64 sd.fileOff j + x = sd.fileOff + (j + x) := by
        rw [start (by omega)]
        omega
      rw [AddressSpace.fill_inside _ _ _ copied, if_pos (by omega), place]
    · rw [AddressSpace.fill_outside _ _ (by omega), if_neg (by omega),
        AddressSpace.fill_inside _ _ _ bound]
  · -- Another frame lies apart from the page.
    obtain ⟨pageWhole, -, -⟩ := serves.frame holds member
    obtain ⟨otherWhole, -, -⟩ := serves.frame holds among
    rw [kept other among x bound, AddressSpace.fill_outside _ _ (by omega),
      AddressSpace.fill_outside _ _ (by omega)]

/-- Fewer addresses show their bytes as well. -/
theorem Displays.mono {area part : Nat → UInt8 → Prop} (displays : Displays view limit taken state area)
    (among : ∀ {address byte}, part address byte → area address byte) :
    Displays view limit taken state part where
  holds := displays.holds
  usable := fun here => displays.usable (among here)
  visible := fun here => displays.visible (among here)

/-- Behind the end of a section nothing more is to be shown. -/
theorem Displays.behind {area : Nat → UInt8 → Prop} (displays : Displays view limit taken state area)
    {j : Nat} (done : sd.memsz ≤ j) : Displays view limit taken state
      (fun address byte => area address byte ∨ sectionArea file sd j sd.memsz address byte) := by
  -- Past the memory size no byte of the section is left to display.
  apply displays.mono
  rintro address byte (before | ⟨k, low, high, -⟩)
  · exact before
  · omega

/--
A new frame has the bytes of a page of a section, and its address stands for it.

The page is then shown, and so is what was shown before in other pages.
-/
theorem shows_withPage {area : Nat → UInt8 → Prop} {before after : AddressSpace} {j : Nat}
    (aligned : sd.vaddr % 4096 = 0) (whole : j % 4096 = 0)
    (visible : ∀ {address byte}, area address byte → before.Shows taken address byte)
    (content : ∀ x, x < 4096 → j + x < sd.memsz → after.memory (page + x) = sectionByte file sd (j + x))
    (kept : ∀ other ∈ taken, ∀ x, x < 4096 → after.memory (other + x) = before.memory (other + x))
    (translated : ∀ {address byte}, area address byte ∨ sectionArea file sd j (j + 4096) address byte →
      after.translate address = (before.mapPage (sd.vaddr + j) page).translate address)
    (apart : ∀ {address byte}, area address byte → address / 4096 ≠ (sd.vaddr + j) / 4096)
    {address : Nat} {byte : UInt8}
    (shown : area address byte ∨ sectionArea file sd j (j + 4096) address byte) :
    after.Shows (page :: taken) address byte := by
  have mapped := translated shown
  rcases shown with old | ⟨k, low, high, among, rfl, rfl⟩
  · -- The address is in another page, and its byte in another frame.
    refine (visible old).congr ?_ fun frame member => ?_
    · rw [mapped, AddressSpace.mapPage]
      exact if_neg (apart old)
    · exact ⟨List.mem_cons_of_mem _ member, kept frame member⟩
  · -- The address is in the page that was mapped.
    have offset : j + (sd.vaddr + k) % 4096 = k := by omega
    refine ⟨page, List.mem_cons_self, (sd.vaddr + k) % 4096, Nat.mod_lt _ (by omega), ?_, ?_⟩
    · rw [mapped]
      exact if_pos (by omega)
    · rw [content _ (Nat.mod_lt _ (by omega)) (by omega), offset]

/-- One more page of a section is shown, once a new frame has its bytes and its address stands for it. -/
theorem Displays.withPage {area : Nat → UInt8 → Prop} {j : Nat} (displays : Displays view limit taken state area)
    (placed : Placed view.first view.last limit sd) (whole : j % 4096 = 0)
    (still : view.holds (page :: taken) next)
    (content : ∀ x, x < 4096 → j + x < sd.memsz →
      (view.space next).memory (page + x) = sectionByte file sd (j + x))
    (kept : ∀ other ∈ taken, ∀ x, x < 4096 →
      (view.space next).memory (other + x) = (view.space state).memory (other + x))
    (translated : ∀ address, address < limit → Outside view.first view.last address →
      (view.space next).translate address =
        ((view.space state).mapPage (sd.vaddr + j) page).translate address)
    (apart : ∀ {address byte}, area address byte → address / 4096 ≠ (sd.vaddr + j) / 4096) :
    Displays view limit (page :: taken) next
      (fun address byte => area address byte ∨ sectionArea file sd j (j + 4096) address byte) := by
  -- What was shown before stays usable, and so is what the section shows.
  have usable : ∀ {address byte}, area address byte ∨ sectionArea file sd j (j + 4096) address byte →
      address < limit ∧ Outside view.first view.last address := by
    rintro address byte (before | ⟨k, -, -, among, rfl, -⟩)
    · exact displays.usable before
    · have ends := placed.memoryEnd
      exact ⟨by omega, placed.outside k among⟩
  refine ⟨still, usable, ?_⟩
  exact shows_withPage placed.aligned whole displays.visible content kept
    (fun shown => translated _ (usable shown).1 (usable shown).2) apart

/-- One more page of a section is shown, and what was shown before still is. -/
theorem Serves.turn (serves : Serves platform view limit) {area : Nat → UInt8 → Prop} {j : Nat}
    (displays : Displays view limit taken state area) (placed : Placed view.first view.last limit sd)
    (whole : j % 4096 = 0) (inside : j < sd.memsz) (small : limit ≤ 2 ^ 64)
    (apart : ∀ {address byte}, area address byte → address / 4096 ≠ (sd.vaddr + j) / 4096) {middle : σ}
    (allocated : platform.pmmAllocPage state = .ok (page, middle)) (some : page ≠ 0)
    (ran : fillPage platform file sd (pagePresent ||| pageWrite) j page middle = .ok next) :
    Displays view limit (page :: taken) next
      (fun address byte => area address byte ∨ sectionArea file sd j (j + 4096) address byte) := by
  -- The page is a new one, so that what was filled before is not written again.
  obtain ⟨fresh, held, same⟩ := serves.alloc displays.holds allocated some
  obtain ⟨still, content, kept, translated⟩ := serves.fillPage_fills held List.mem_cons_self placed whole inside
    small ran
  rw [same] at kept translated
  refine displays.withPage placed whole still (fun x bound _ => content x bound)
    (fun other member x bound => ?_) translated apart
  have differs : other ≠ page := by
    rintro rfl
    exact fresh member
  exact kept other (List.mem_cons_of_mem _ member) differs x bound

/-- A section is shown once the loop over its pages came to its end. -/
theorem Serves.pageLoop_displays (serves : Serves platform view limit) {area : Nat → UInt8 → Prop}
    {flags fuel j : Nat} (both : flags ||| pageWrite = pagePresent ||| pageWrite)
    (displays : Displays view limit taken state area) (placed : Placed view.first view.last limit sd)
    (whole : j % 4096 = 0) (small : limit ≤ 2 ^ 64) (short : sd.memsz ≤ 2 ^ 64 - 4096)
    (apart : ∀ {address byte}, area address byte → ∀ k, j ≤ k → k < sd.memsz →
      address / 4096 ≠ (sd.vaddr + k) / 4096)
    (loaded : MiraExec.pageLoop platform file sd flags fuel j state = .ok (true, next)) :
    ∃ more, Displays view limit more next
      (fun address byte => area address byte ∨ sectionArea file sd j sd.memsz address byte) := by
  -- Each turn shows one more page, in front of those that are still to come.
  induction fuel generalizing j state taken area with
  | zero =>
    by_cases more : j < sd.memsz
    · obtain ⟨less, -, -, -, none, -⟩ := pageLoop_loaded more loaded
      omega
    · rw [pageLoop_done (by omega)] at loaded
      cases loaded
      exact ⟨taken, displays.behind (by omega)⟩
  | succ fuel ih =>
    by_cases more : j < sd.memsz
    · obtain ⟨less, page, middle, filled, same, allocated, some, fills, rest⟩ :=
        pageLoop_loaded more loaded
      obtain rfl : less = fuel := by omega
      rw [both] at fills
      rw [add64_of_lt (by omega)] at rest
      have turned := serves.turn displays placed whole more small
        (fun here => apart here j (Nat.le_refl j) more) allocated some fills
      have aligned := placed.aligned
      -- The pages to come are apart from this one too.
      have further : ∀ {address : Nat} {byte : UInt8},
          area address byte ∨ sectionArea file sd j (j + 4096) address byte →
          ∀ k, j + 4096 ≤ k → k < sd.memsz → address / 4096 ≠ (sd.vaddr + k) / 4096 := by
        rintro address byte (before | ⟨l, -, high, -, rfl, -⟩) k low among
        · exact apart before k (by omega) among
        · omega
      obtain ⟨more, shown⟩ := ih turned (by omega) further rest
      refine ⟨more, shown.mono ?_⟩
      rintro address byte (before | ⟨k, low, high, among, place, value⟩)
      · exact .inl (.inl before)
      · by_cases here : k < j + 4096
        · exact .inl (.inr ⟨k, low, here, among, place, value⟩)
        · exact .inr ⟨k, by omega, high, among, place, value⟩
    · rw [pageLoop_done (by omega)] at loaded
      cases loaded
      exact ⟨taken, displays.behind (by omega)⟩

end

/-- What the sections of a container have to be like. -/
structure LoadableSections (file : List UInt8) (first last limit : Nat) : Prop where
  placed : ∀ {i sd}, i < (headerOf file).sectCount →
    readSectDesc file (headerOf file).sectTableOff i = .ok sd → Placed first last limit sd
  disjoint : ∀ {i j sd other}, i < (headerOf file).sectCount → j < (headerOf file).sectCount → i ≠ j →
    readSectDesc file (headerOf file).sectTableOff i = .ok sd →
    readSectDesc file (headerOf file).sectTableOff j = .ok other → PagesApart sd other

section

variable {σ : Type} {platform : Platform σ} {view : KernelView σ} {limit : Nat} {file : List UInt8}
  {state next : σ}

/-- The sections are shown one after the other. -/
theorem Serves.sectionLoop_displays (serves : Serves platform view limit) {fuel i count : Nat}
    {taken : List Nat} (displays : Displays view limit taken state (loadedArea file i))
    (sections : LoadableSections file view.first view.last limit) (small : limit ≤ 2 ^ 64)
    (last : i + count = (headerOf file).sectCount)
    (loaded : MiraExec.sectionLoop platform fuel file (headerOf file).sectTableOff count i state =
      .ok (true, next)) :
    ∃ more, Displays view limit more next (loadedArea file (headerOf file).sectCount) := by
  induction count generalizing i state taken with
  | zero =>
    cases loaded
    rw [← last]
    exact ⟨taken, displays⟩
  | succ count ih =>
    obtain ⟨sd, middle, read, -, pages, rest⟩ := sectionLoop_loaded loaded
    have placed := sections.placed (by omega) read
    -- The pages of this section are apart from those of the sections before.
    have apart : ∀ {address : Nat} {byte : UInt8}, loadedArea file i address byte →
        ∀ k, 0 ≤ k → k < sd.memsz → address / 4096 ≠ (sd.vaddr + k) / 4096 := by
      rintro address byte ⟨n, other, below, found, l, -, -, within, rfl, -⟩ k - among
      exact sections.disjoint (by omega) (by omega) (by omega) found read l within k among
    obtain ⟨more, shown⟩ := serves.pageLoop_displays (execFlags_eq _ _) displays placed rfl small
      (pageLoop_ends (by omega) rfl pages) apart pages
    refine ih (shown.mono ?_) (by omega) rest
    rintro address byte ⟨n, other, below, found, here⟩
    by_cases same : n = i
    · subst same
      obtain rfl : sd = other := Except.ok.inj (read.symm.trans found)
      exact .inr here
    · exact .inl ⟨n, other, by omega, found, here⟩

/-- Every section was read and passed its checks, once the loop over the sections came to its end. -/
theorem sectionLoop_sections {fuel i count n : Nat}
    (loaded : MiraExec.sectionLoop platform fuel file (headerOf file).sectTableOff count i state =
      .ok (true, next)) (low : i ≤ n) (high : n < i + count) :
    ∃ sd, readSectDesc file (headerOf file).sectTableOff n = .ok sd ∧ SectionPasses file sd := by
  -- Induction on the sections, of which each is read and checked before its pages are mapped.
  induction count generalizing i state with
  | zero => omega
  | succ count ih =>
    obtain ⟨sd, middle, read, passes, -, rest⟩ := sectionLoop_loaded loaded
    by_cases here : n = i
    · rw [here]
      exact ⟨sd, read, passes⟩
    · exact ih rest (by omega) (by omega)

/-- What a container shows that was loaded, for addresses below a limit. -/
theorem Serves.load_displays (serves : Serves platform view limit) (small : limit ≤ 2 ^ 64)
    (sections : LoadableSections file view.first view.last limit) (start : view.holds [] state)
    {type fuel : Nat} {image : MiraLoadedImage}
    (loaded : miraLoad platform fuel file type state = .ok (some image, next)) :
    image.entryPoint = (headerOf file).entryPoint ∧ ∀ i, i < (headerOf file).sectCount →
      ∃ sd, readSectDesc file (headerOf file).sectTableOff i = .ok sd ∧ ∀ k, k < sd.memsz →
        (view.space next).read (sd.vaddr + k) =
          if k < sd.filesz then file[sd.fileOff + k]? else some 0 := by
  by_cases valid : miraBinIsValid file type = .ok true
  swap
  · rw [miraLoad_invalid platform valid] at loaded
    cases loaded
  rw [miraLoad_eq platform valid, mapImage] at loaded
  obtain ⟨⟨mapped, last⟩, ran, result⟩ := bind_eq_ok.mp loaded
  rw [← sectionLoop_eq] at ran
  cases mapped with
  | false => cases result
  | true =>
    cases result
    refine ⟨rfl, fun i among => ?_⟩
    -- At first nothing has to be shown, at last all sections.
    have empty : Displays view limit [] state (loadedArea file 0) := by
      refine ⟨start, ?_, ?_⟩
      · rintro address byte ⟨n, sd, none, -⟩
        omega
      · rintro address byte ⟨n, sd, none, -⟩
        omega
    obtain ⟨more, shown⟩ := serves.sectionLoop_displays empty sections small (Nat.zero_add _) ran
    obtain ⟨sd, read, passes⟩ := sectionLoop_sections ran (Nat.zero_le i) (by omega)
    refine ⟨sd, read, fun k within => ?_⟩
    rw [(shown.visible ⟨i, sd, among, read, k, Nat.zero_le k, within, within, rfl, rfl⟩).read, sectionByte]
    by_cases part : k < sd.filesz
    · -- The section is inside the container, so that its byte is one.
      have ends := passes.inside
      rw [add64_of_lt (sections.placed among read).fileEnd] at ends
      rw [if_pos part, if_pos part, List.getD_eq_getElem?_getD, List.getElem?_eq_getElem (by omega)]
      rfl
    · rw [if_neg part, if_neg part]

end

/-- A kernel in little: memory, the frame of each page and the frames to hand out. -/
structure PageMachine where
  memory : Nat → UInt8
  pages : Nat → Option Nat
  free : List Nat

/-- The memory of that kernel behind its pages. -/
def PageMachine.space (machine : PageMachine) : AddressSpace where
  memory := machine.memory
  translate := fun address => (machine.pages (address / 4096)).map (· + address % 4096)

/-- A frame is mapped at a page, and is no longer mapped at its own address. -/
def PageMachine.mapFrame (machine : PageMachine) (page frame : Nat) : PageMachine :=
  { machine with
    pages := Function.update (Function.update machine.pages (frame / 4096) none) page (some frame) }

/-- The calls of that kernel. -/
def frameMachine : Platform PageMachine where
  pmmAllocPage := fun machine =>
    match machine.free with
    | [] => .ok (0, machine)
    | frame :: rest => .ok (frame, { machine with free := rest })
  storeByte := fun address byte machine =>
    match machine.space.translate address with
    | some place => .ok { machine with memory := Function.update machine.memory place byte }
    | none => .error .outOfBounds
  pagingMapPage := fun virt phys _ machine => .ok (machine.mapFrame (virt / 4096) phys)

/-- Some frames are taken and others are left, all between two pages; what was not moved is at its own address. -/
structure PageMachine.Frames (machine : PageMachine) (first last : Nat) (taken moved : List Nat) : Prop where
  distinct : (taken ++ machine.free).Nodup
  frames : ∀ frame ∈ taken ++ machine.free,
    frame % 4096 = 0 ∧ first * 4096 ≤ frame ∧ frame + 4096 ≤ last * 4096
  identity : ∀ n, first ≤ n → n < last → n ∉ moved →
    machine.pages n = none ∨ machine.pages n = some (n * 4096)

/-- How that kernel looks to the loader. -/
def frameView (first last : Nat) : LoaderView PageMachine where
  space := PageMachine.space
  holds := fun taken moved machine => machine.Frames first last taken moved

section

variable {first last : Nat} {taken moved : List Nat} {machine next : PageMachine} {page : Nat}

/-- A frame that is handed out is the next of those that are left. -/
theorem PageMachine.Frames.alloc (frames : machine.Frames first last taken moved)
    (allocated : frameMachine.pmmAllocPage machine = .ok (page, next)) (nonzero : page ≠ 0) :
    page ∉ taken ∧ next.Frames first last (page :: taken) moved ∧ next.space = machine.space := by
  obtain ⟨memory, pages, free⟩ := machine
  cases free with
  | nil =>
    cases allocated
    exact absurd rfl nonzero
  | cons frame rest =>
    cases allocated
    -- The frame moves from those that are left to those that are taken.
    have same : (page :: taken ++ rest).Perm (taken ++ page :: rest) := List.perm_middle.symm
    have distinct := same.nodup_iff.mpr frames.distinct
    refine ⟨fun again => ?_, ⟨distinct, fun other member => ?_, frames.identity⟩, rfl⟩
    · exact (List.nodup_cons.mp distinct).1 (List.mem_append_left _ again)
    · exact frames.frames other (same.mem_iff.mp member)

/-- A frame that was taken is mapped at a page. -/
theorem PageMachine.Frames.map (frames : machine.Frames first last taken moved) (n : Nat) :
    (machine.mapFrame n page).Frames first last taken (n :: moved) := by
  refine ⟨frames.distinct, frames.frames, fun other low high apart => ?_⟩
  obtain ⟨differs, before⟩ := not_or.mp (fun among => apart (List.mem_cons.mpr among))
  unfold PageMachine.mapFrame
  dsimp only
  rw [Function.update_of_ne differs, Function.update_apply]
  -- The page of the frame itself is no longer mapped.
  split
  · exact .inl rfl
  · exact frames.identity other low high before

/-- That kernel does what the loader relies on. -/
theorem frameMachine_servesPages (range : last ≤ 2 ^ 52) :
    ServesPages frameMachine (frameView first last) first last (2 ^ 64) where
  range := range
  frame := fun frames member => frames.frames _ (List.mem_append_left _ member)
  identity := by
    intro taken moved machine address place frames low high apart mapped
    have mapped : (machine.pages (address / 4096)).map (· + address % 4096) = some place := mapped
    -- A frame is mapped nowhere or at its own address.
    rcases frames.identity (address / 4096) (by omega) (by omega) apart with none | own
    · rw [none] at mapped
      cases mapped
    · rw [own, Option.map_some] at mapped
      have same := Option.some.inj mapped
      omega
  alloc := fun frames allocated nonzero => frames.alloc allocated nonzero
  store := by
    intro taken moved machine page address byte next frames member low high stored
    rw [frameMachine] at stored
    dsimp only at stored
    split at stored
    · -- The store goes to the mapped place, and no page is remapped by it.
      rename_i place mapped
      cases stored
      refine ⟨?_, frames.distinct, frames.frames, frames.identity⟩
      show (machine.space.translate address).map _ = _
      rw [mapped]
      rfl
    · cases stored
  map := by
    intro taken moved machine page virt next frames member below called
    cases called
    obtain ⟨whole, low, high⟩ := frames.frames page (List.mem_append_left _ member)
    refine ⟨fun address bound apart => ?_, fun _ _ _ _ => rfl, frames.map _⟩
    show (Function.update (Function.update machine.pages (page / 4096) none) (virt / 4096) (some page)
      (address / 4096)).map (· + address % 4096) = _
    unfold AddressSpace.mapPage
    dsimp only
    -- The page itself is mapped to its frame, and any other page as before.
    by_cases here : address / 4096 = virt / 4096
    · rw [here, Function.update_self, if_pos rfl]
      rfl
    · -- Another address is none of the frame, as it lies outside of the frames.
      have away : address / 4096 ≠ page / 4096 := by
        rcases apart with (before | behind) | same
        · omega
        · omega
        · exact absurd same here
      rw [Function.update_of_ne here, Function.update_of_ne away, if_neg here]
      rfl

/-- A store to a frame of that kernel succeeds where the frame is mapped. -/
theorem frameMachine_stores {base x : Nat} (whole : page % 4096 = 0) (mapped : machine.pages (page / 4096) = some base)
    (range : page + 4096 ≤ 2 ^ 64) (small : x < 4096) (byte : UInt8) :
    frameMachine.storeByte (add64 page x) byte machine =
      .ok { machine with memory := Function.update machine.memory (base + x) byte } := by
  -- The whole page leads to the frame, each place of it at the same offset.
  have number : (page + x) / 4096 = page / 4096 := by omega
  have offset : (page + x) % 4096 = x := by omega
  have translated : machine.space.translate (page + x) = some (base + x) := by
    show (machine.pages ((page + x) / 4096)).map (· + (page + x) % 4096) = _
    rw [number, offset, mapped]
    rfl
  rw [add64_of_lt (by omega), frameMachine]
  dsimp only
  rw [translated]

/-- Filling a frame of that kernel succeeds. -/
theorem memset_frameMachine {base : Nat} (whole : page % 4096 = 0)
    (mapped : machine.pages (page / 4096) = some base) (range : page + 4096 ≤ 2 ^ 64) (val : UInt8)
    {count i : Nat} (room : i + count ≤ 4096) :
    ∃ memory, memset frameMachine page val count i machine = .ok { machine with memory := memory } := by
  -- Each store keeps the mapping, so that the next one goes to the same frame.
  induction count generalizing i machine with
  | zero => exact ⟨machine.memory, rfl⟩
  | succ count ih =>
    have stored := frameMachine_stores whole mapped range (show i < 4096 by omega) val
    obtain ⟨memory, rest⟩ := @ih { machine with memory := Function.update machine.memory (base + i) val }
      mapped (i + 1) (by omega)
    exact ⟨memory, bind_eq_ok.mpr ⟨_, stored, rest⟩⟩

/-- Copying to a frame of that kernel succeeds, and changes the bytes that are copied to only. -/
theorem copySection_frameMachine {base : Nat} (whole : page % 4096 = 0)
    (mapped : machine.pages (page / 4096) = some base) (range : page + 4096 ≤ 2 ^ 64)
    {file : List UInt8} {source count k : Nat} (room : k + count ≤ 4096)
    (inside : source + k + count ≤ file.length) (word : source + k + count < 2 ^ 64) :
    ∃ memory, copySection frameMachine file source page count k machine =
        .ok { machine with memory := memory } ∧
      ∀ place, place < base + k ∨ base + k + count ≤ place → memory place = machine.memory place := by
  -- Each byte goes to its own place, and the places outside stay.
  induction count generalizing k machine with
  | zero => exact ⟨machine.memory, rfl, fun _ _ => rfl⟩
  | succ count ih =>
    have place : add64 source k = source + k := add64_of_lt (by omega)
    have stored := frameMachine_stores whole mapped range (show k < 4096 by omega) file[source + k]
    obtain ⟨memory, rest, same⟩ :=
      @ih { machine with memory := Function.update machine.memory (base + k) file[source + k] } mapped (k + 1)
        (by omega) (by omega) (by omega)
    refine ⟨memory, ?_, fun other outside => ?_⟩
    · rw [copySection, place, readByte_inside (by omega), ok_bind, onPlatform_ok.mpr stored]
      exact rest
    · rw [same other (by omega)]
      exact Function.update_of_ne (by omega) _ _

end

/-- That kernel before anything was loaded: the first two megabytes are mapped, and two frames are free. -/
def freshMachine : PageMachine where
  memory := fun _ => 0xCC
  pages := fun n => if n < 512 then some (n * 4096) else none
  free := [0x100000, 0x101000]

/-- No frame of it is taken yet. -/
theorem freshMachine_frames : freshMachine.Frames 256 512 [] [] :=
  ⟨by decide, by decide, fun _ _ high _ => .inr (if_pos high)⟩

/-- The section of the small program is read from its table. -/
theorem smallProgram_read {i : Nat} (among : i < (headerOf smallProgram).sectCount) :
    readSectDesc smallProgram (headerOf smallProgram).sectTableOff i = .ok smallSection := by
  -- The file has one section, and its descriptor lies inside the file.
  obtain ⟨count, -, found⟩ := smallProgram_section
  obtain rfl : i = 0 := by omega
  have checks := (isValid_iff.mp (sectionContainer_valid smallSection [0x90, 0x90, 0xC3])).1
  exact (readSectDesc_inside checks (by decide) among).trans (congrArg Except.ok found)

/-- The small program is loaded by that kernel. -/
theorem smallProgram_loads : ∃ image next,
    miraLoad frameMachine 1 smallProgram miraBinTypeMex freshMachine = .ok (some image, next) := by
  obtain ⟨count, -, -⟩ := smallProgram_section
  have read := @smallProgram_read 0 (by omega)
  -- The page is cleared, three bytes are copied to it and it is mapped.
  have room : 0 + 4096 ≤ 4096 := by omega
  obtain ⟨memory, zeroed⟩ := @memset_frameMachine { freshMachine with free := [0x101000] } 0x100000 0x100000 rfl
    rfl (by decide) 0 4096 0 room
  obtain ⟨filled, copied, -⟩ := @copySection_frameMachine
    { freshMachine with free := [0x101000], memory := memory } 0x100000 0x100000 rfl rfl (by decide)
    smallProgram 104 3 0 (by omega) (by decide) (by omega)
  have fills : ∃ mapped, fillPage frameMachine smallProgram smallSection (pagePresent ||| pageWrite) 0
      0x100000 { freshMachine with free := [0x101000] } = .ok mapped :=
    ⟨_, bind_eq_ok.mpr ⟨_, onPlatform_ok.mpr zeroed, bind_eq_ok.mpr ⟨_, copied, rfl⟩⟩⟩
  obtain ⟨mapped, fills⟩ := fills
  -- The one page of the section is the one turn of the page loop.
  have pages : MiraExec.pageLoop frameMachine smallProgram smallSection
      (MiraExec.miraFlagsToPaging smallSection.sectType smallSection.sectFlags) 1 0 freshMachine =
        .ok (true, mapped) := by
    rw [pageLoop_turn (by decide), execFlags_eq]
    refine bind_eq_ok.mpr ⟨_, rfl, bind_eq_ok.mpr ⟨mapped, fills, ?_⟩⟩
    exact pageLoop_done (by decide) mapped
  have sections : MiraExec.sectionLoop frameMachine 1 smallProgram (headerOf smallProgram).sectTableOff
      (headerOf smallProgram).sectCount 0 freshMachine = .ok (true, mapped) := by
    rw [count, sectionLoop_turn read ⟨by decide, by decide⟩, pages]
    rfl
  -- The file is valid, so the loader comes to its sections.
  have valid : miraBinIsValid smallProgram miraBinTypeMex = .ok true :=
    sectionContainer_valid smallSection [0x90, 0x90, 0xC3]
  refine ⟨⟨(headerOf smallProgram).entryPoint, 0, 0⟩, mapped, ?_⟩
  rw [miraLoad_eq frameMachine valid, mapImage, ← sectionLoop_eq]
  exact bind_eq_ok.mpr ⟨_, sections, rfl⟩

end MiraOS

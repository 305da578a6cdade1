import MiraOS.Kernel.ElfImage
import MiraOS.Kernel.MiraPlatform

/-! When the memory shows an ELF file as it is, whatever was in the frames before. -/

namespace MiraOS

open Machine

/--
What was loaded is in memory as the segments say, in every kernel that does what the loader relies on.

The frames of its page allocator lie between two pages. Nothing is known about the bytes that they had before.
-/
def ElfImageCorrect (file : List UInt8) (first last : Nat) : Prop :=
  ∀ (σ : Type) (platform : Platform σ) (view : LoaderView σ) (limit fuel : Nat) (wantsEntry : Bool)
    (state next : σ) (entry : Option Nat), ServesPages platform view first last limit → limit ≤ 2 ^ 64 →
    LoadableSegments file limit → view.holds [] [] state →
    elfLoad platform fuel file wantsEntry state = .ok (true, entry, next) →
    ∀ i k, i < elfField file 56 2 → IsLoaded file i → k < (segmentAt file i).memsz →
      (view.space next).read ((segmentAt file i).vaddr + k) =
        if k < (segmentAt file i).filesz then file[(segmentAt file i).offset + k]? else some 0

/-- The header is accepted, the segments are as they have to be, and there are frames for all pages. -/
structure Room (file : List UInt8) (first last : Nat) : Prop where
  accepted : ElfAccepted file
  segments : LoadableSegments file (2 ^ 64)
  frames : (elfPages file).length ≤ last - first
  range : last ≤ 2 ^ 52

/-- All pages of a file but the last one that is loaded lie outside of the frames. -/
def PagesOutside (file : List UInt8) (first last : Nat) : Prop :=
  ∀ page ∈ (elfPages file).dropLast, page.vaddr / 4096 < first ∨ last ≤ page.vaddr / 4096

section

variable {file : List UInt8} {first last : Nat}

/-- Segments below one limit are below a higher one. -/
theorem LoadableSegments.mono {limit more : Nat} (segments : LoadableSegments file limit) (low : limit ≤ more) :
    LoadableSegments file more :=
  ⟨segments.inside, segments.short, fun i among load => (segments.memoryEnd i among load).trans low,
    segments.disjoint⟩

/-- A kernel that has loaded a file had room for its pages. -/
theorem room_of_loaded {σ : Type} {platform : Platform σ} {view : LoaderView σ} {limit fuel : Nat}
    {wantsEntry : Bool} {state next : σ} {entry : Option Nat}
    (serves : ServesPages platform view first last limit) (small : limit ≤ 2 ^ 64)
    (segments : LoadableSegments file limit) (short : file.length < 2 ^ 63) (start : view.holds [] [] state)
    (loaded : elfLoad platform fuel file wantsEntry state = .ok (true, entry, next)) : Room file first last := by
  obtain ⟨frames, moved, holds, distinct, count⟩ := serves.loadPages_takes
    (fun page member => segments.loadable member) start List.nodup_nil (elfLoad_pages segments short small loaded)
  -- The frames are distinct, and all of them lie between the two pages.
  have fit := frames_fit distinct (fun frame member => (serves.frame holds member).1)
    (fun frame member => (serves.frame holds member).2)
  have whole : last * 4096 / 4096 = last := by omega
  rw [count, whole, List.length_nil, Nat.zero_add] at fit
  exact ⟨(elfLoad_loaded segments short loaded).1, segments.mono small, fit, serves.range⟩

end

/-- A kernel in little whose frames are full of one byte, with nothing mapped but the frames. -/
def dirtyMachine (frames : List Nat) (dirt : UInt8) : PageMachine where
  memory := fun _ => dirt
  pages := fun n => if n * 4096 ∈ frames then some (n * 4096) else none
  free := frames

/--
The frames that are left are full of one byte, and no store to one of them reaches another one.

Each of them is mapped at its own address, or where a page was mapped over it to a frame handed out before.
-/
structure PageMachine.Blank (machine : PageMachine) (dirt : UInt8) : Prop where
  distinct : machine.free.Nodup
  whole : ∀ frame ∈ machine.free, frame % 4096 = 0 ∧ 0 < frame ∧ frame + 4096 ≤ 2 ^ 64
  blank : ∀ frame ∈ machine.free, ∀ x, x < 4096 → machine.memory (frame + x) = dirt
  lands : ∀ frame ∈ machine.free, ∃ base, machine.pages (frame / 4096) = some base ∧ base % 4096 = 0 ∧
    (base = frame ∨ base ∉ machine.free)

/-- A page is mapped to a frame whose byte at a place is the one that was there before. -/
structure PageMachine.Hides (machine : PageMachine) (number frame place : Nat) (dirt : UInt8) : Prop where
  mapped : machine.pages number = some frame
  whole : frame % 4096 = 0
  taken : frame ∉ machine.free
  dirty : machine.memory (frame + place) = dirt
  -- No store to a frame to come reaches that frame.
  lands : ∀ other ∈ machine.free, ∃ base, machine.pages (other / 4096) = some base ∧ base % 4096 = 0 ∧
    base ≠ frame

section

variable {file : List UInt8} {page : ElfSegment} {machine : PageMachine} {frame base number place : Nat}
  {rest : List Nat} {dirt : UInt8}

/-- Loading a page succeeds where its frame is mapped, and changes the bytes that are copied to only. -/
theorem loadPage_frameMachine (loadable : LoadablePage file (2 ^ 64) page) (short : file.length < 2 ^ 63)
    (whole : frame % 4096 = 0) (range : frame + 4096 ≤ 2 ^ 64)
    (mapped : machine.pages (frame / 4096) = some base) :
    ∃ memory, loadPage frameMachine file page frame machine =
        .ok ({ machine with memory := memory }.mapFrame (page.vaddr / 4096) frame) ∧
      ∀ place, place < base ∨ base + page.copied ≤ place → memory place = machine.memory place := by
  have small := loadable.small
  have copied : page.copied ≤ page.memsz := Nat.min_le_right _ _
  rcases loadable.bytes with none | inside
  · -- Without bytes the frame keeps all of its own.
    refine ⟨machine.memory, ?_, fun _ _ => rfl⟩
    rw [loadPage, none]
    rfl
  · obtain ⟨memory, ran, same⟩ := @copySection_frameMachine machine frame base whole mapped range file page.offset
      page.copied 0 (by omega) (by omega) (by omega)
    refine ⟨memory, ?_, fun place outside => same place (by omega)⟩
    rw [loadPage, ran]
    rfl

/-- A page leads to the frame that was mapped there. -/
theorem mapFrame_self (machine : PageMachine) (number frame : Nat) :
    (machine.mapFrame number frame).pages number = some frame := Function.update_self ..

/-- The page of a frame to come is mapped as before, unless it is the page that is mapped. -/
theorem mapFrame_pages {other : Nat} (number : Nat) (apart : other / 4096 ≠ frame / 4096) :
    (machine.mapFrame number frame).pages (other / 4096) =
      if other / 4096 = number then some frame else machine.pages (other / 4096) := by
  unfold PageMachine.mapFrame
  dsimp only
  rw [Function.update_apply, Function.update_of_ne apart]

/-- A page is loaded to the next frame, and those behind it are still full of that byte. -/
theorem PageMachine.Blank.turn (blank : machine.Blank dirt) (free : machine.free = frame :: rest)
    (loadable : LoadablePage file (2 ^ 64) page) (short : file.length < 2 ^ 63) :
    ∃ base memory, machine.pages (frame / 4096) = some base ∧ base % 4096 = 0 ∧ (base = frame ∨ base ∉ rest) ∧
      loadPage frameMachine file page frame { machine with free := rest } =
        .ok ({ machine with free := rest, memory := memory }.mapFrame (page.vaddr / 4096) frame) ∧
      (∀ place, place < base ∨ base + page.copied ≤ place → memory place = machine.memory place) ∧
      PageMachine.Blank ({ machine with free := rest, memory := memory }.mapFrame (page.vaddr / 4096) frame) dirt := by
  have here : frame ∈ machine.free := free ▸ List.mem_cons_self
  have among : ∀ other ∈ rest, other ∈ machine.free := fun other member => free ▸ List.mem_cons_of_mem _ member
  obtain ⟨whole, -, range⟩ := blank.whole frame here
  obtain ⟨base, mapped, aligned, own⟩ := blank.lands frame here
  obtain ⟨fresh, distinct⟩ := List.nodup_cons.mp (free ▸ blank.distinct)
  have small := loadable.small
  have copied : page.copied ≤ page.memsz := Nat.min_le_right _ _
  obtain ⟨memory, ran, same⟩ := @loadPage_frameMachine file page { machine with free := rest } frame base
    loadable short whole range mapped
  refine ⟨base, memory, mapped, aligned, own.imp_right fun apart member => apart (among base member), ran, same,
    distinct, fun other member => blank.whole other (among other member), fun other member x bound => ?_,
    fun other member => ?_⟩
  · -- The store reaches this frame, or one that was handed out before.
    have apart : other ≠ base := by
      rintro rfl
      rcases own with rfl | gone
      · exact fresh member
      · exact gone (among _ member)
    have otherWhole := (blank.whole other (among other member)).1
    exact (same _ (by omega)).trans (blank.blank other (among other member) x bound)
  · have differs : other ≠ frame := by
      rintro rfl
      exact fresh member
    have otherWhole := (blank.whole other (among other member)).1
    obtain ⟨before, there, beforeAligned, beforeOwn⟩ := blank.lands other (among other member)
    rw [mapFrame_pages _ (by omega)]
    -- A frame that the page is mapped over now leads to the frame just taken.
    by_cases onto : other / 4096 = page.vaddr / 4096
    · exact ⟨frame, if_pos onto, whole, .inr fresh⟩
    · exact ⟨before, (if_neg onto).trans there, beforeAligned,
        beforeOwn.imp_right fun apart still => apart (among before still)⟩

/-- A page is loaded, and the byte at the place of its frame is the one from before. -/
theorem PageMachine.Blank.hides (blank : machine.Blank dirt) (free : machine.free = frame :: rest)
    (loadable : LoadablePage file (2 ^ 64) page) (short : file.length < 2 ^ 63) (small : place < 4096)
    (missed : machine.pages (frame / 4096) = some frame → page.copied ≤ place)
    (clear : ∀ other ∈ rest, other / 4096 ≠ page.vaddr / 4096) :
    ∃ next, loadPage frameMachine file page frame { machine with free := rest } = .ok next ∧
      next.free = rest ∧ next.Hides (page.vaddr / 4096) frame place dirt := by
  obtain ⟨base, memory, mapped, aligned, -, ran, same, turned⟩ := blank.turn free loadable short
  have here : frame ∈ machine.free := free ▸ List.mem_cons_self
  have among : ∀ other ∈ rest, other ∈ machine.free := fun other member => free ▸ List.mem_cons_of_mem _ member
  obtain ⟨whole, -, -⟩ := blank.whole frame here
  obtain ⟨fresh, -⟩ := List.nodup_cons.mp (free ▸ blank.distinct)
  have pageSmall := loadable.small
  have copied : page.copied ≤ page.memsz := Nat.min_le_right _ _
  refine ⟨_, ran, rfl, mapFrame_self .., whole, fresh, ?_, fun other member => ?_⟩
  · -- The copy went elsewhere, or ended in front of the place.
    have unchanged : memory (frame + place) = machine.memory (frame + place) := by
      by_cases own : base = frame
      · subst own
        have bound := missed mapped
        exact same _ (by omega)
      · exact same _ (by omega)
    exact unchanged.trans (blank.blank frame here place small)
  · have differs : other ≠ frame := by
      rintro rfl
      exact fresh member
    have otherWhole := (blank.whole other (among other member)).1
    obtain ⟨before, there, beforeAligned, own⟩ := blank.lands other (among other member)
    rw [mapFrame_pages _ (by omega), if_neg (clear other member)]
    refine ⟨before, there, beforeAligned, ?_⟩
    rintro rfl
    rcases own with same | gone
    · exact differs same.symm
    · exact gone here

/-- A further page is loaded elsewhere, and that byte is still the one from before. -/
theorem PageMachine.Hides.turn {other : Nat} (hides : machine.Hides number frame place dirt)
    (free : machine.free = other :: rest) (distinct : machine.free.Nodup)
    (whole : ∀ frame ∈ machine.free, frame % 4096 = 0 ∧ 0 < frame ∧ frame + 4096 ≤ 2 ^ 64)
    (loadable : LoadablePage file (2 ^ 64) page) (short : file.length < 2 ^ 63) (small : place < 4096)
    (apart : page.vaddr / 4096 ≠ number) :
    ∃ next, loadPage frameMachine file page other { machine with free := rest } = .ok next ∧
      next.free = rest ∧ next.Hides number frame place dirt := by
  have here : other ∈ machine.free := free ▸ List.mem_cons_self
  have among : ∀ later ∈ rest, later ∈ machine.free := fun later member => free ▸ List.mem_cons_of_mem _ member
  obtain ⟨otherWhole, -, range⟩ := whole other here
  obtain ⟨base, mapped, aligned, away⟩ := hides.lands other here
  obtain ⟨fresh, -⟩ := List.nodup_cons.mp (free ▸ distinct)
  have frameWhole := hides.whole
  have pageSmall := loadable.small
  have copied : page.copied ≤ page.memsz := Nat.min_le_right _ _
  obtain ⟨memory, ran, same⟩ := @loadPage_frameMachine file page { machine with free := rest } other base
    loadable short otherWhole range mapped
  refine ⟨_, ran, rfl, ?_, frameWhole, fun still => hides.taken (among frame still), ?_, fun later member => ?_⟩
  · -- The page of the new frame is another one, as it does not lead to the frame in question.
    have differs : number ≠ other / 4096 := by
      rintro rfl
      exact away (Option.some.inj (mapped.symm.trans hides.mapped))
    show Function.update (Function.update machine.pages (other / 4096) none) (page.vaddr / 4096) (some other)
      number = _
    rw [Function.update_of_ne apart.symm, Function.update_of_ne differs]
    exact hides.mapped
  · exact (same _ (by omega)).trans hides.dirty
  · have differs : later ≠ other := by
      rintro rfl
      exact fresh member
    have laterWhole := (whole later (among later member)).1
    obtain ⟨before, there, beforeAligned, beforeAway⟩ := hides.lands later (among later member)
    rw [mapFrame_pages _ (by omega)]
    -- A frame that the page is mapped over leads to the new frame, which is not the one in question.
    by_cases onto : later / 4096 = page.vaddr / 4096
    · refine ⟨other, if_pos onto, otherWhole, ?_⟩
      rintro rfl
      exact hides.taken here
    · exact ⟨before, (if_neg onto).trans there, beforeAligned, beforeAway⟩

/-- The next frame of that kernel is handed out. -/
theorem frameMachine_alloc (free : machine.free = frame :: rest) :
    frameMachine.pmmAllocPage machine = .ok (frame, { machine with free := rest }) := by
  obtain ⟨memory, pages, frames⟩ := machine
  cases free
  rfl

/-- A page stays unmapped, or is mapped at the address of a frame that is left. -/
def PageMachine.Idle (machine : PageMachine) (number : Nat) : Prop :=
  machine.pages number = none ∨ number * 4096 ∈ machine.free

/-- A frame is mapped at another page, and is no longer at its own address. -/
theorem PageMachine.Idle.mapFrame (idle : machine.Idle number) (free : machine.free = frame :: rest)
    (whole : frame % 4096 = 0) (memory : Nat → UInt8) (apart : page.vaddr / 4096 ≠ number) :
    PageMachine.Idle ({ machine with free := rest, memory := memory }.mapFrame (page.vaddr / 4096) frame)
      number := by
  unfold PageMachine.Idle PageMachine.mapFrame
  dsimp only
  rw [Function.update_of_ne apart.symm]
  rcases idle with none | left
  · -- Taking away a mapping leaves the page unmapped.
    refine .inl ?_
    rw [Function.update_apply]
    split
    · rfl
    · exact none
  · rw [free] at left
    rcases List.mem_cons.mp left with own | behind
    · refine .inl ?_
      have number : frame / 4096 = number := by omega
      rw [number, Function.update_self]
    · exact .inr behind

/-- Some pages are loaded to the frames in front, and those behind are still full of that byte. -/
theorem PageMachine.Blank.loadPages {pages : List ElfSegment} {front : List Nat} (blank : machine.Blank dirt)
    (free : machine.free = front ++ rest) (count : front.length = pages.length)
    (loadable : ∀ page ∈ pages, LoadablePage file (2 ^ 64) page) (short : file.length < 2 ^ 63) :
    ∃ next, loadPages frameMachine file pages machine = .ok (true, next) ∧ next.free = rest ∧
      next.Blank dirt ∧
      ∀ number, machine.Idle number → (∀ page ∈ pages, page.vaddr / 4096 ≠ number) → next.Idle number := by
  -- Induction on the pages: each takes the first frame, and only the page that is mapped stops being idle.
  induction pages generalizing machine front with
  | nil =>
    obtain rfl := List.length_eq_zero_iff.mp count
    exact ⟨machine, rfl, free, blank, fun _ idle _ => idle⟩
  | cons page pages ih =>
    obtain ⟨frame, front, rfl⟩ := List.exists_cons_of_length_eq_add_one count
    have here : frame ∈ machine.free := free ▸ List.mem_cons_self
    obtain ⟨whole, positive, -⟩ := blank.whole frame here
    obtain ⟨base, memory, -, -, -, ran, -, turned⟩ := blank.turn free (loadable page List.mem_cons_self) short
    obtain ⟨next, others, left, still, idle⟩ := ih turned rfl (Nat.succ.inj count)
      fun other member => loadable other (List.mem_cons_of_mem _ member)
    refine ⟨next, loadPages_cons.mpr ⟨frame, _, _, frameMachine_alloc free, by omega, ran, others⟩, left, still,
      fun number before apart => idle number ?_ fun other member => apart other (List.mem_cons_of_mem _ member)⟩
    -- A number that no page of the file maps stays idle.
    exact before.mapFrame free whole memory (apart page List.mem_cons_self)

/-- Further pages are loaded elsewhere, and that byte is still the one from before. -/
theorem PageMachine.Hides.loadPages {pages : List ElfSegment} (hides : machine.Hides number frame place dirt)
    (distinct : machine.free.Nodup)
    (whole : ∀ frame ∈ machine.free, frame % 4096 = 0 ∧ 0 < frame ∧ frame + 4096 ≤ 2 ^ 64)
    (count : machine.free.length = pages.length)
    (loadable : ∀ page ∈ pages, LoadablePage file (2 ^ 64) page) (short : file.length < 2 ^ 63)
    (small : place < 4096) (apart : ∀ page ∈ pages, page.vaddr / 4096 ≠ number) :
    ∃ next, loadPages frameMachine file pages machine = .ok (true, next) ∧
      next.Hides number frame place dirt := by
  -- Induction on the pages: none of them reaches the frame, which another number leads to.
  induction pages generalizing machine with
  | nil => exact ⟨machine, rfl, hides⟩
  | cons page pages ih =>
    obtain ⟨other, rest, free⟩ := List.exists_cons_of_length_eq_add_one count
    obtain ⟨-, positive, -⟩ := whole other (free ▸ List.mem_cons_self)
    obtain ⟨middle, ran, left, still⟩ := hides.turn free distinct whole (loadable page List.mem_cons_self) short
      small (apart page List.mem_cons_self)
    -- The frames that are left were free before.
    have among : ∀ later ∈ middle.free, later ∈ machine.free := by
      rw [left, free]
      exact fun later member => List.mem_cons_of_mem _ member
    have fewer : middle.free.length = pages.length := by
      rw [free] at count
      rw [left]
      exact Nat.succ.inj count
    obtain ⟨next, others, last⟩ := ih still (left ▸ (List.nodup_cons.mp (free ▸ distinct)).2)
      (fun later member => whole later (among later member)) fewer
      (fun later member => loadable later (List.mem_cons_of_mem _ member))
      (fun later member => apart later (List.mem_cons_of_mem _ member))
    exact ⟨next, loadPages_cons.mpr ⟨other, _, _, frameMachine_alloc free, by omega, ran, others⟩, last⟩

/-- What an address in that page shows. -/
theorem PageMachine.Hides.read {address : Nat} (hides : machine.Hides (address / 4096) frame (address % 4096) dirt) :
    machine.space.read address = some dirt := by
  -- The page is mapped to the dirty frame, so the read ends there.
  have mapped := hides.mapped
  show ((machine.pages (address / 4096)).map (· + address % 4096)).map machine.memory = _
  rw [mapped]
  exact congrArg some hides.dirty

/-- At first all frames of that kernel are full of that byte. -/
theorem dirtyMachine_blank {frames : List Nat} (distinct : frames.Nodup)
    (whole : ∀ frame ∈ frames, frame % 4096 = 0 ∧ 0 < frame ∧ frame + 4096 ≤ 2 ^ 64) :
    (dirtyMachine frames dirt).Blank dirt := by
  refine ⟨distinct, whole, fun _ _ _ _ => rfl, fun frame member => ?_⟩
  -- A whole frame is the one that its own number leads to.
  have own : frame / 4096 * 4096 = frame := by
    have aligned := (whole frame member).1
    omega
  refine ⟨frame, ?_, (whole frame member).1, .inl rfl⟩
  show (if frame / 4096 * 4096 ∈ frames then some (frame / 4096 * 4096) else none) = _
  rw [own]
  exact if_pos member

/-- At first a page is unmapped, or mapped at the address of a frame. -/
theorem dirtyMachine_idle (frames : List Nat) (number : Nat) : (dirtyMachine frames dirt).Idle number := by
  -- A page is one of the free frames, or nothing is mapped there.
  by_cases among : number * 4096 ∈ frames
  · exact .inr among
  · exact .inl (if_neg among)

/-- A page and those behind it are loaded, and an address in the page shows what was in its frame before. -/
theorem PageMachine.Blank.shows {pages : List ElfSegment} {address : Nat} (blank : machine.Blank dirt)
    (free : machine.free = frame :: rest) (count : rest.length = pages.length)
    (loadable : ∀ other ∈ page :: pages, LoadablePage file (2 ^ 64) other) (short : file.length < 2 ^ 63)
    (here : page.vaddr / 4096 = address / 4096)
    (missed : machine.pages (frame / 4096) = some frame → page.copied ≤ address % 4096)
    (clear : ∀ other ∈ rest, other / 4096 ≠ address / 4096)
    (apart : ∀ other ∈ pages, other.vaddr / 4096 ≠ address / 4096) :
    ∃ next, MiraOS.loadPages frameMachine file (page :: pages) machine = .ok (true, next) ∧
      next.space.read address = some dirt := by
  have small : address % 4096 < 4096 := Nat.mod_lt _ (by omega)
  have among : ∀ other ∈ rest, other ∈ machine.free := fun other member => free ▸ List.mem_cons_of_mem _ member
  obtain ⟨-, positive, -⟩ := blank.whole frame (free ▸ List.mem_cons_self)
  -- The frame of the page shows what lay there, and no later page writes over it.
  obtain ⟨middle, ran, left, hides⟩ := blank.hides free (loadable page List.mem_cons_self) short small missed
    (fun other member => here ▸ clear other member)
  rw [here] at hides
  obtain ⟨next, others, last⟩ := hides.loadPages (left ▸ (List.nodup_cons.mp (free ▸ blank.distinct)).2)
    (fun other member => blank.whole other (among other (left ▸ member))) (left ▸ count)
    (fun other member => loadable other (List.mem_cons_of_mem _ member)) short small apart
  exact ⟨next, loadPages_cons.mpr ⟨frame, _, _, frameMachine_alloc free, by omega, ran, others⟩, last.read⟩

end

section

variable {file : List UInt8} {first last : Nat}

/-- A segment has no more pages than the file. -/
theorem pageCount_le {i : Nat} (among : i < elfField file 56 2) (load : IsLoaded file i) :
    (segmentAt file i).pageCount ≤ (elfPages file).length := by
  -- The pages of one segment are a part of all of them.
  have part : headerPages file i ∈ (List.range' 0 (elfField file 56 2)).map (headerPages file) :=
    List.mem_map.mpr ⟨i, List.mem_range'_1.mpr ⟨Nat.zero_le i, by omega⟩, rfl⟩
  have fewer := (List.sublist_flatten_of_mem part).length_le
  rw [headerPages_load load, ElfSegment.pagesFrom, List.length_map, List.length_range', Nat.sub_zero] at fewer
  rw [elfPages, List.flatMap_def]
  exact fewer

/-- With room for them, a file is loaded once its pages are. -/
theorem Room.loads {σ : Type} {platform : Platform σ} {state next : σ} (room : Room file first last)
    (positive : 0 < first) (short : file.length < 2 ^ 63)
    (loaded : loadPages platform file (elfPages file) state = .ok (true, next)) :
    elfLoad platform (2 ^ 52) file false state = .ok (true, none, next) := by
  have header : 64 ≤ file.length := room.segments.inside.header
  have range := room.range
  have frames := room.frames
  have ran := @elfSegmentLoop_of_pages _ platform file state next (2 ^ 52) (elfField file 56 2) 0 (by omega) short
    (fun n _ among => room.segments.read (by omega))
    (fun n _ among load => room.segments.memoryEnd n (by omega) load)
    (fun n _ among load => by
      -- There are fewer pages than page numbers below the last address.
      have few := pageCount_le (show n < elfField file 56 2 by omega) load
      unfold ElfSegment.pageCount at few ⊢
      omega) loaded
  rw [elfLoad_accepted room.accepted (by omega) short, ran]
  rfl

/-- A file is not shown as it is, if a kernel in little with some dirt in its frames shows the dirt or nothing. -/
theorem not_elfImageCorrect {i k : Nat} (room : Room file first last) (positive : 0 < first)
    (short : file.length < 2 ^ 63) {frames : List Nat} (distinct : frames.Nodup)
    (inside : ∀ frame ∈ frames, frame % 4096 = 0 ∧ first * 4096 ≤ frame ∧ frame + 4096 ≤ last * 4096)
    (among : i < elfField file 56 2) (load : IsLoaded file i) (bound : k < (segmentAt file i).memsz)
    (dirty : ∀ dirt, ∃ next, loadPages frameMachine file (elfPages file) (dirtyMachine frames dirt) =
      .ok (true, next) ∧ (next.space.read ((segmentAt file i).vaddr + k) = none ∨
        next.space.read ((segmentAt file i).vaddr + k) = some dirt)) :
    ¬ ElfImageCorrect file first last := by
  intro correct
  have ends := room.segments.inside.segments i among load
  -- The byte that the segment says, and another one that was in the frames before.
  obtain ⟨right, said⟩ : ∃ right : UInt8, (if k < (segmentAt file i).filesz then
      file[(segmentAt file i).offset + k]? else some 0) = some right := by
    by_cases part : k < (segmentAt file i).filesz
    · rw [if_pos part, List.getElem?_eq_getElem (by omega)]
      exact ⟨_, rfl⟩
    · rw [if_neg part]
      exact ⟨_, rfl⟩
  obtain ⟨dirt, wrong⟩ : ∃ dirt : UInt8, dirt ≠ right := by
    by_cases zero : right = 0
    · exact ⟨1, by rw [zero]; decide⟩
    · exact ⟨0, fun same => zero same.symm⟩
  obtain ⟨next, ran, shown⟩ := dirty dirt
  -- In the kernel with that dirt the file is loaded, and the address should show the right byte.
  have start : (dirtyMachine frames dirt).Frames first last [] [] := by
    refine ⟨distinct, inside, fun n _ _ _ => ?_⟩
    by_cases member : n * 4096 ∈ frames
    · exact .inr (if_pos member)
    · exact .inl (if_neg member)
  have read := correct PageMachine frameMachine (frameView first last) (2 ^ 64) (2 ^ 52) false _ next none
    (frameMachine_servesPages room.range) (Nat.le_refl _) room.segments start (room.loads positive short ran)
    i k among load bound
  rw [said] at read
  have read : next.space.read ((segmentAt file i).vaddr + k) = some right := read
  rcases shown with none | old
  · rw [none] at read
    cases read
  · rw [old] at read
    exact wrong (Option.some.inj read)

/-- The frames between two pages. -/
def frameRange (first last : Nat) : List Nat := (List.range' first (last - first)).map (· * 4096)

/-- What such a frame is like. -/
theorem mem_frameRange {frame : Nat} : frame ∈ frameRange first last ↔ ∃ n, first ≤ n ∧ n < last ∧ frame = n * 4096 := by
  unfold frameRange
  rw [List.mem_map]
  -- The frames of a range are its numbers, each times the size of a page.
  constructor
  · rintro ⟨n, among, rfl⟩
    rw [List.mem_range'_1] at among
    exact ⟨n, by omega, by omega, rfl⟩
  · rintro ⟨n, low, high, rfl⟩
    exact ⟨n, List.mem_range'_1.mpr ⟨low, by omega⟩, rfl⟩

/-- They are distinct. -/
theorem frameRange_nodup (first last : Nat) : (frameRange first last).Nodup :=
  (List.nodup_range' 1).map_on fun one _ two _ same => by omega

/-- They lie between the two pages. -/
theorem frameRange_inside {frame : Nat} (member : frame ∈ frameRange first last) :
    frame % 4096 = 0 ∧ first * 4096 ≤ frame ∧ frame + 4096 ≤ last * 4096 := by
  obtain ⟨n, low, high, rfl⟩ := mem_frameRange.mp member
  omega

/-- Some frames as a page allocator may hand them out, with one of them at a place of its own. -/
theorem frames_around {frame place count : Nat} (member : frame ∈ frameRange first last)
    (room : place + 1 + count ≤ last - first) :
    ∃ front back, (front ++ frame :: back).Nodup ∧ front.length = place ∧ back.length = count ∧
      ∀ other ∈ front ++ frame :: back, other ∈ frameRange first last := by
  have distinct := frameRange_nodup first last
  have length : ((frameRange first last).erase frame).length = last - first - 1 := by
    rw [List.length_erase_of_mem member, frameRange, List.length_map, List.length_range']
  -- The other frames are taken from the range without this one.
  have split := @List.take_add _ ((frameRange first last).erase frame) place count
  have fewer := List.take_sublist (place + count) ((frameRange first last).erase frame)
  have perm := @List.perm_middle _ frame (((frameRange first last).erase frame).take place)
    ((((frameRange first last).erase frame).drop place).take count)
  rw [← split] at perm
  refine ⟨((frameRange first last).erase frame).take place,
    (((frameRange first last).erase frame).drop place).take count, ?_, ?_, ?_, fun other among => ?_⟩
  · exact perm.nodup_iff.mpr (List.nodup_cons.mpr
      ⟨fun again => distinct.not_mem_erase (fewer.subset again), (distinct.erase frame).sublist fewer⟩)
  · rw [List.length_take, length]
    omega
  · rw [List.length_take, List.length_drop, length]
    omega
  · rcases List.mem_cons.mp (perm.mem_iff.mp among) with rfl | before
    · exact member
    · exact List.mem_of_mem_erase (fewer.subset before)

/-- An address inside a page of a file lies behind the bytes that are copied there, if it is not to be right. -/
theorem copied_le_place {i k : Nat} {page : ElfSegment} (segments : LoadableSegments file (2 ^ 64))
    (among : i < elfField file 56 2) (load : IsLoaded file i) (inside : k < (segmentAt file i).memsz)
    (behind : (segmentAt file i).filesz ≤ k + (segmentAt file i).vaddr % 4096)
    (member : page ∈ elfPages file) (here : page.vaddr / 4096 = ((segmentAt file i).vaddr + k) / 4096) :
    page.copied ≤ ((segmentAt file i).vaddr + k) % 4096 := by
  obtain ⟨n, t, below, other, part, rfl⟩ := mem_elfPages.mp member
  have place : ((segmentAt file n).page t).vaddr = (segmentAt file n).vaddr + 4096 * t := rfl
  rw [place] at here
  rw [ElfSegment.page_copied]
  unfold ElfSegment.pageCount at part
  -- No other segment has a page there, and the bytes of this one end in front of the address.
  by_cases same : n = i
  · subst same
    have copied : (segmentAt file n).copied ≤ (segmentAt file n).filesz := Nat.min_le_left _ _
    omega
  · exact absurd here (segments.disjoint n i below among same other load (4096 * t)
      (show 4096 * t < (segmentAt file n).memsz by omega) k inside)

/-- The first byte of a page of a file is one of its segment. -/
theorem page_address {page : ElfSegment} (member : page ∈ elfPages file) :
    ∃ i k, i < elfField file 56 2 ∧ IsLoaded file i ∧ k < (segmentAt file i).memsz ∧
      page.vaddr = (segmentAt file i).vaddr + k := by
  -- A page of the file lies in one of its loaded segments.
  obtain ⟨i, t, among, load, part, rfl⟩ := mem_elfPages.mp member
  unfold ElfSegment.pageCount at part
  exact ⟨i, 4096 * t, among, load, by omega, rfl⟩

/-- The last of the elements with a property that have another one behind them. -/
theorem exists_last_before {α : Type} {list : List α} {holds : α → Prop} (some : ∃ x ∈ list.dropLast, holds x) :
    ∃ front x y back, list = front ++ x :: y :: back ∧ holds x ∧ (holds y → back = []) := by
  induction list with
  | nil =>
    obtain ⟨x, member, -⟩ := some
    cases member
  | cons first list ih =>
    cases list with
    | nil =>
      obtain ⟨x, member, -⟩ := some
      cases member
    | cons second list =>
      by_cases later : ∃ x ∈ (second :: list).dropLast, holds x
      · obtain ⟨front, x, y, back, split, here, alone⟩ := ih later
        exact ⟨first :: front, x, y, back, by rw [split]; rfl, here, alone⟩
      · -- No later one has the property, so it is the first one.
        refine ⟨[], first, second, list, rfl, ?_, fun next => ?_⟩
        · obtain ⟨x, member, here⟩ := some
          rw [List.dropLast_cons_cons] at member
          rcases List.mem_cons.mp member with rfl | behind
          · exact here
          · exact absurd ⟨x, behind, here⟩ later
        · by_contra more
          obtain ⟨third, rest, rfl⟩ := List.exists_cons_of_ne_nil more
          exact later ⟨second, List.mem_cons_self, next⟩

/-- What is asked of the frames that the page allocator of that kernel has. -/
theorem frames_whole {frames : List Nat} (range : last ≤ 2 ^ 52) (positive : 0 < first)
    (among : ∀ frame ∈ frames, frame ∈ frameRange first last) :
    ∀ frame ∈ frames, frame % 4096 = 0 ∧ 0 < frame ∧ frame + 4096 ≤ 2 ^ 64 := by
  intro frame member
  -- The numbers of the frames run from a positive first one to a last one of at most 2⁵².
  obtain ⟨whole, low, high⟩ := frameRange_inside (among frame member)
  exact ⟨whole, by omega, by omega⟩

/-- None of the frames behind is at a page that lies outside of the range, unless there are no such frames. -/
theorem frames_clear {α : Type} {frames : List Nat} {number : Nat} {pages : List α}
    (among : ∀ frame ∈ frames, frame ∈ frameRange first last) (count : frames.length = pages.length)
    (onto : first ≤ number ∧ number < last → pages = []) : ∀ frame ∈ frames, frame / 4096 ≠ number := by
  rintro frame member rfl
  -- A frame with this number lies in the range, so no page needs it.
  obtain ⟨whole, low, high⟩ := frameRange_inside (among frame member)
  rw [onto ⟨by omega, by omega⟩, List.length_nil, List.length_eq_zero_iff] at count
  rw [count] at member
  cases member

/--
A file is not shown as it is, if a byte of a segment lies behind those that are copied to its page.

Counted from the start of its first page, the byte is at or behind the end of the segment in the file.
-/
theorem not_elfImageCorrect_behind {i k : Nat} (short : file.length < 2 ^ 63) (room : Room file first last)
    (positive : 0 < first) (outside : PagesOutside file first last) (among : i < elfField file 56 2)
    (load : IsLoaded file i) (inside : k < (segmentAt file i).memsz)
    (behind : (segmentAt file i).filesz ≤ k + (segmentAt file i).vaddr % 4096) :
    ¬ ElfImageCorrect file first last := by
  have range := room.range
  have frames := room.frames
  have loadable : ∀ page ∈ elfPages file, _ := fun _ member => room.segments.loadable member
  -- The page of the address is one that is loaded, or stays unmapped.
  by_cases mapped : ∃ page ∈ elfPages file, page.vaddr / 4096 = ((segmentAt file i).vaddr + k) / 4096
  · obtain ⟨page, member, here⟩ := mapped
    have missed := copied_le_place room.segments among load inside behind member here
    have differ := room.segments.distinct
    obtain ⟨front, back, split⟩ := List.append_of_mem member
    rw [PagesOutside, split] at outside
    rw [split] at differ loadable frames
    rw [List.length_append, List.length_cons] at frames
    have onto : first ≤ page.vaddr / 4096 ∧ page.vaddr / 4096 < last → back = [] := by
      rintro ⟨low, high⟩
      by_contra more
      have early : page ∈ (front ++ page :: back).dropLast := by
        rw [List.dropLast_append_of_ne_nil (List.cons_ne_nil _ _), List.dropLast_cons_of_ne_nil more]
        exact List.mem_append_right _ List.mem_cons_self
      have away := outside page early
      omega
    obtain ⟨before, after, distinct, frontCount, backCount, fromRange⟩ :=
      @frames_around first last (first * 4096) front.length back.length
        (mem_frameRange.mpr ⟨first, Nat.le_refl _, by omega, rfl⟩) (by omega)
    refine not_elfImageCorrect room positive short distinct
      (fun frame member => frameRange_inside (fromRange frame member)) among load inside fun dirt => ?_
    -- The pages in front are loaded, then this one, and then those behind it.
    have blank := @dirtyMachine_blank dirt _ distinct (frames_whole range positive fromRange)
    obtain ⟨middle, ran, left, still, -⟩ := blank.loadPages rfl frontCount
      (fun other member => loadable other (List.mem_append_left _ member)) short
    obtain ⟨next, others, shown⟩ := still.shows left backCount
      (fun other member => loadable other (List.mem_append_right _ member)) short here (fun _ => missed)
      (here ▸ frames_clear (fun other member =>
        fromRange other (List.mem_append_right _ (List.mem_cons_of_mem _ member))) backCount onto)
      fun other member => by
        rw [← here]
        exact ((List.pairwise_cons.mp (List.pairwise_append.mp differ).2.1).1 other member).symm
    rw [split]
    exact ⟨next, loadPages_append.mpr ⟨middle, ran, others⟩, .inr shown⟩
  · -- The byte lies in no page that is loaded, so any frames will do and the address stays unmapped.
    have fewer := List.take_sublist (elfPages file).length (frameRange first last)
    have distinct := (frameRange_nodup first last).sublist fewer
    have count : ((frameRange first last).take (elfPages file).length).length = (elfPages file).length := by
      rw [List.length_take, frameRange, List.length_map, List.length_range']
      omega
    refine not_elfImageCorrect room positive short distinct
      (fun frame member => frameRange_inside (fewer.subset member)) among load inside fun dirt => ?_
    have blank := @dirtyMachine_blank dirt _ distinct (frames_whole range positive fun frame member => fewer.subset member)
    obtain ⟨next, ran, left, -, idle⟩ := blank.loadPages (List.append_nil _).symm count
      (fun page member => loadable page member) short
    refine ⟨next, ran, .inl ?_⟩
    -- All frames were handed out, so no page is mapped at the address of one that is left.
    have unmapped := idle _ (dirtyMachine_idle _ (((segmentAt file i).vaddr + k) / 4096))
      fun page member same => mapped ⟨page, member, same⟩
    rcases unmapped with none | some
    · show ((next.pages (((segmentAt file i).vaddr + k) / 4096)).map _).map _ = _
      rw [none]
      rfl
    · rw [left] at some
      cases some

/--
A file is not shown as it is, if a page of it that is not the last one lies over the frames.

The frame at that page may be the next one that is handed out. What is then copied to its address ends up in
the page before, and the next page shows what was in the frame.
-/
theorem not_elfImageCorrect_over (short : file.length < 2 ^ 63) (room : Room file first last)
    (positive : 0 < first) (onto : ¬ PagesOutside file first last) : ¬ ElfImageCorrect file first last := by
  have range := room.range
  have frames := room.frames
  have differ := room.segments.distinct
  have loadable : ∀ page ∈ elfPages file, _ := fun _ member => room.segments.loadable member
  have early : ∃ page ∈ (elfPages file).dropLast, first ≤ page.vaddr / 4096 ∧ page.vaddr / 4096 < last := by
    by_contra none
    refine onto fun page member => ?_
    by_contra inside
    exact none ⟨page, member, by omega, by omega⟩
  -- Take the last of those pages, so that the one behind it is not one of them.
  obtain ⟨front, page, hidden, back, split, ⟨low, high⟩, alone⟩ := exists_last_before early
  have member : hidden ∈ elfPages file := by
    rw [split]
    simp
  obtain ⟨i, k, among, load, inside, address⟩ := page_address member
  rw [split] at differ loadable frames
  rw [List.length_append, List.length_cons, List.length_cons] at frames
  obtain ⟨before, after, distinct, frontCount, backCount, fromRange⟩ :=
    @frames_around first last (page.vaddr / 4096 * 4096) (front.length + 1) back.length
      (mem_frameRange.mpr ⟨_, low, high, rfl⟩) (by omega)
  obtain ⟨early, frame, rfl⟩ := List.eq_nil_or_concat' before |>.resolve_left (by
    rintro rfl
    cases frontCount)
  refine not_elfImageCorrect room positive short distinct
    (fun frame member => frameRange_inside (fromRange frame member)) among load inside fun dirt => ?_
  have blank := @dirtyMachine_blank dirt _ distinct (frames_whole range positive fromRange)
  rw [List.length_append, List.length_singleton] at frontCount
  obtain ⟨middle, ran, left, still, -⟩ := @PageMachine.Blank.loadPages file _
    (frame :: page.vaddr / 4096 * 4096 :: after) dirt front early blank
    (List.append_assoc early [frame] _) (Nat.succ.inj frontCount)
    (fun other member => loadable other (List.mem_append_left _ member)) short
  -- The page is mapped over the frame that is handed out next.
  obtain ⟨base, memory, -, -, -, turn, -, turned⟩ := still.turn left
    (loadable page (List.mem_append_right _ List.mem_cons_self)) short
  have whole := (frames_whole range positive fromRange frame (by simp)).2.1
  have differs : frame ≠ page.vaddr / 4096 * 4096 := by
    rw [List.append_assoc] at distinct
    rintro same
    exact (List.nodup_cons.mp (List.nodup_append.mp distinct).2.1).1 (same ▸ List.mem_cons_self)
  obtain ⟨next, others, shown⟩ := @PageMachine.Blank.shows file hidden _ (page.vaddr / 4096 * 4096) after dirt back
    ((segmentAt file i).vaddr + k) turned rfl backCount
    (fun other member => loadable other (List.mem_append_right _ (List.mem_cons_of_mem _ member))) short
    (by rw [address]) (fun own => by
      -- A store to that frame ends up in the frame of the page before.
      have number : page.vaddr / 4096 * 4096 / 4096 = page.vaddr / 4096 := by omega
      rw [number, mapFrame_self] at own
      exact absurd (Option.some.inj own) differs)
    (address ▸ frames_clear (fun other member =>
      fromRange other (List.mem_append_right _ (List.mem_cons_of_mem _ member))) backCount alone)
    fun other member => by
      rw [← address]
      exact ((List.pairwise_cons.mp (List.pairwise_cons.mp (List.pairwise_append.mp differ).2.1).2).1 other
        member).symm
  rw [split]
  exact ⟨next, loadPages_append.mpr ⟨middle, ran, loadPages_cons.mpr
    ⟨frame, _, _, frameMachine_alloc left, by omega, turn, others⟩⟩, .inr shown⟩

/-- A byte of a whole segment is one that a page of it shows. -/
theorem pageArea_byte {i k : Nat} (among : i < elfField file 56 2) (load : IsLoaded file i)
    (inside : k < (segmentAt file i).memsz) (full : (segmentAt file i).filesz = (segmentAt file i).memsz) :
    ∃ page ∈ elfPages file,
      pageArea file page ((segmentAt file i).vaddr + k) (file.getD ((segmentAt file i).offset + k) 0) := by
  refine ⟨(segmentAt file i).page (k / 4096), mem_elfPages.mpr ⟨i, k / 4096, among, load, ?_, rfl⟩, k % 4096,
    Nat.zero_le _, Nat.mod_lt _ (by omega), ?_, ?_, ?_⟩
  · unfold ElfSegment.pageCount
    omega
  · show k % 4096 < min ((segmentAt file i).memsz - 4096 * (k / 4096)) 4096
    omega
  · show _ = (segmentAt file i).vaddr + 4096 * (k / 4096) + k % 4096
    omega
  · -- With all its memory in the file, no byte of the segment is behind those that are copied.
    have copied : (segmentAt file i).copied = (segmentAt file i).memsz := LoadablePage.copied_eq full
    have byte := (segmentAt file i).page_copied (k / 4096)
    have place : (segmentAt file i).offset + 4096 * (k / 4096) + k % 4096 = (segmentAt file i).offset + k := by
      omega
    have part : k % 4096 < (segmentSection ((segmentAt file i).page (k / 4096))).filesz := by
      show k % 4096 < ((segmentAt file i).page (k / 4096)).copied
      omega
    rw [sectionByte, if_pos part, ← place]
    rfl

/-- What a file of whole pages shows that was loaded, if all its pages but the last one lie outside of the frames. -/
theorem ServesPages.elf_displays {σ : Type} {platform : Platform σ} {view : LoaderView σ} {limit fuel : Nat}
    {wantsEntry : Bool} {state next : σ} {entry : Option Nat}
    (serves : ServesPages platform view first last limit) (small : limit ≤ 2 ^ 64)
    (short : file.length < 2 ^ 63) (segments : LoadableSegments file limit) (wholes : SegmentsWhole file)
    (outside : PagesOutside file first last) (start : view.holds [] [] state)
    (loaded : elfLoad platform fuel file wantsEntry state = .ok (true, entry, next)) {i k : Nat}
    (among : i < elfField file 56 2) (load : IsLoaded file i) (inside : k < (segmentAt file i).memsz) :
    (view.space next).read ((segmentAt file i).vaddr + k) =
      if k < (segmentAt file i).filesz then file[(segmentAt file i).offset + k]? else some 0 := by
  obtain ⟨-, full⟩ := wholes i among load (Nat.zero_lt_of_lt inside)
  have ends := segments.inside.segments i among load
  -- The byte is one of the page that it lies in.
  obtain ⟨page, member, shown⟩ := pageArea_byte among load inside full
  rw [serves.loadPages_shows (fun page here => segments.loadable here) short
    (fun page here => wholes.ofPage here) segments.distinct outside start (elfLoad_pages segments short small loaded)
    member shown, full, if_pos inside, List.getD_eq_getElem?_getD, List.getElem?_eq_getElem (by omega),
    Option.getD_some]

/--
An ELF file that the booted kernel has loaded is in memory as its segments say.

Its free frames lie in the first two megabytes, which are mapped from boot on. The segments are whole, and all
pages but the last one lie outside of the managed memory.
-/
theorem kernel_elf_correct {bootFuel mbi bitmapAddr tables fuel : Nat} {info mem : Memory} {pmm : Pmm}
    {boot : BootTables} {wantsEntry : Bool} {entry : Option Nat} {next : Paging Pmm}
    (booted : pmmInit bootFuel info mbi bitmapAddr = .ok pmm) (cleared : ClearedBss mem boot)
    (small : pmm.memEnd / pageSize ≤ 2 ^ 36)
    (low : ∀ page ∈ managedFree pmm, page < 512 ∧ page * pageSize ∉ boot.all) (short : file.length < 2 ^ 63)
    (segments : LoadableSegments file (2 ^ 48)) (wholes : SegmentsWhole file)
    (outside : PagesOutside file 256 (pmm.memEnd / pageSize))
    (loaded : elfLoad (kernelPlatform tables) fuel file wantsEntry (pagingInit boot mem pmm) =
      .ok (true, entry, next)) {i k : Nat} (among : i < elfField file 56 2) (load : IsLoaded file i)
    (inside : k < (segmentAt file i).memsz) :
    (kernelSpace next).read ((segmentAt file i).vaddr + k) =
      if k < (segmentAt file i).filesz then file[(segmentAt file i).offset + k]? else some 0 := by
  have holds := kernelHolds_boot cleared (bootedPmm_init booted) small low
  -- Before anything is loaded, the managed memory is mapped at its own addresses.
  have start : (kernelLoaderView boot (pmm.memEnd / pageSize)).holds [] [] (pagingInit boot mem pmm) :=
    ⟨_, _, holds.toFrames, fun n above below => (holds.identity n above below).imp_right .inl⟩
  exact (kernelPlatform_servesPages boot small tables).elf_displays (by decide) short segments wholes outside start
    loaded among load inside

end

/-- The pages of a file with one segment are those of the segment. -/
theorem elfPages_single {file : List UInt8} (count : elfField file 56 2 = 1) (load : IsLoaded file 0) :
    elfPages file = (segmentAt file 0).pagesFrom 0 := by
  rw [elfPages, count, List.range'_one, List.flatMap_singleton, headerPages_load load]

/-- A file with one segment has room between two pages that are far enough apart. -/
theorem room_single {file : List UInt8} {first last : Nat} (accepted : ElfAccepted file)
    (count : elfField file 56 2 = 1) (place : segmentPlace file 0 = 64) (load : IsLoaded file 0)
    (long : 120 ≤ file.length) (ends : (segmentAt file 0).offset + (segmentAt file 0).filesz ≤ file.length)
    (short : (segmentAt file 0).filesz ≤ (segmentAt file 0).memsz)
    (memoryEnd : (segmentAt file 0).vaddr + (segmentAt file 0).memsz ≤ 2 ^ 64)
    (frames : (segmentAt file 0).pageCount ≤ last - first) (range : last ≤ 2 ^ 52) : Room file first last := by
  -- With one header in the table there is one segment, and all is said of that.
  have single : ∀ i, i < elfField file 56 2 → i = 0 := by
    intro i among
    omega
  refine ⟨accepted, ⟨⟨?_, fun i among => ?_, fun i among _ => ?_⟩, fun i among _ => ?_, fun i among _ => ?_,
    fun i j one two differ => ?_⟩, ?_, range⟩
  · rw [elfHeaderBytes]
    omega
  · rw [single i among, place, elfProgramHeaderBytes]
    exact long
  · rw [single i among]
    exact ends
  · rw [single i among]
    exact short
  · rw [single i among]
    exact memoryEnd
  · omega
  · rw [elfPages_single count load, ElfSegment.pagesFrom, List.length_map, List.length_range', Nat.sub_zero]
    exact frames

/-- A segment of sixteen bytes, of which three are in the file. -/
def bssSegment : ElfSegment where
  vaddr := 0x400000
  offset := 120
  filesz := 3
  memsz := 16

/-- A file of that segment. -/
def bssElf : List UInt8 := elfFile bssSegment [0x90, 0x90, 0xC3]

end MiraOS

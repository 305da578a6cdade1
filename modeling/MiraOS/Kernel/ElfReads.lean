import MiraOS.Kernel.Elf
import MiraOS.Kernel.MiraReads

/-! When the loader of ELF files reads only the file, and rejects a file that is cut off. -/

namespace MiraOS

open Machine

/-- The number that some bytes of a file stand for. -/
def elfField (file : List UInt8) (index width : Nat) : Nat := leValue (fieldOf file index width)

/-- The header passes the two checks of the loader. -/
def ElfAccepted (file : List UInt8) : Prop :=
  elfField file 0 4 = elfMagic ∧ elfField file 18 2 = elfMachine

/-- The place of a program header of a file. -/
def segmentPlace (file : List UInt8) (i : Nat) : Nat :=
  programHeaderPlace (elfField file 32 8) (elfField file 54 2) i

/-- A program header stands for a segment that is loaded. -/
def IsLoaded (file : List UInt8) (i : Nat) : Prop := elfField file (segmentPlace file i) 4 = ptLoad

/-- What the bytes at a place say about a segment. -/
def segmentOf (file : List UInt8) (ph : Nat) : ElfSegment where
  vaddr := elfField file (ph + 16) 8
  offset := elfField file (ph + 8) 8
  filesz := elfField file (ph + 32) 8
  memsz := elfField file (ph + 40) 8

/-- What a program header says about its segment. -/
def segmentAt (file : List UInt8) (i : Nat) : ElfSegment := segmentOf file (segmentPlace file i)

/-- The bytes that are copied from a segment, no more than it has in memory. -/
def ElfSegment.copied (segment : ElfSegment) : Nat := min segment.filesz segment.memsz

/-- The bytes that are copied from a segment are bytes of the file. -/
def SegmentBytes (file : List UInt8) (segment : ElfSegment) : Prop :=
  segment.copied = 0 ∨ segment.offset + segment.copied ≤ file.length

/-- What is read for a program header is in the file. -/
def HeaderRead (file : List UInt8) (i : Nat) : Prop :=
  segmentPlace file i + 4 ≤ file.length ∧
    (IsLoaded file i → segmentPlace file i + 48 ≤ file.length ∧ SegmentBytes file (segmentAt file i))

/-- The loop over the pages of a segment comes to an end. -/
def SegmentEnds (file : List UInt8) (i : Nat) : Prop :=
  IsLoaded file i → (segmentAt file i).memsz ≤ 2 ^ 64 - 4096

/-- The header, the program headers and the segments that are loaded are in the file as a whole. -/
structure ElfInside (file : List UInt8) : Prop where
  header : elfHeaderBytes ≤ file.length
  table : ∀ i, i < elfField file 56 2 → segmentPlace file i + elfProgramHeaderBytes ≤ file.length
  segments : ∀ i, i < elfField file 56 2 → IsLoaded file i →
    (segmentAt file i).offset + (segmentAt file i).filesz ≤ file.length

/-- The loader reads only the file and rejects one that is cut off, whatever the platform answers. -/
def ElfReadsInside (file : List UInt8) : Prop :=
  ∀ (σ : Type) (platform : Platform σ) (fuel : Nat) (wantsEntry : Bool) (state : σ),
    StaysIn (elfLoad platform fuel file wantsEntry state) ∧
    ∀ entry next, elfLoad platform fuel file wantsEntry state = .ok (true, entry, next) → ElfInside file

/-- A file is long enough for what the loader reads of it, and not cut off where it is accepted. -/
structure ElfFits (file : List UInt8) : Prop where
  magic : 4 ≤ file.length
  machine : elfField file 0 4 = elfMagic → 20 ≤ file.length
  header : ElfAccepted file → 58 ≤ file.length
  -- A program header is reached if the loops over the segments before it end.
  segments : ElfAccepted file → ∀ i, i < elfField file 56 2 → (∀ j, j < i → SegmentEnds file j) →
    HeaderRead file i
  whole : ElfAccepted file → (∀ i, i < elfField file 56 2 → SegmentEnds file i) → ElfInside file

/-- A segment as a section of a container, with the bytes that are copied from it. -/
def segmentSection (segment : ElfSegment) : MiraSectDesc where
  sectType := miraSectData
  sectFlags := 0
  vaddr := segment.vaddr
  memsz := segment.memsz
  filesz := segment.copied
  fileOff := segment.offset

section

variable {σ : Type} {platform : Platform σ} {file : List UInt8} {segment : ElfSegment}

/-- Bytes that run over the end of a file are read outside of it. -/
theorem readBytes_outside {index count : Nat} (long : file.length < index + count) (some : 0 < count)
    (small : file.length < 2 ^ 63) (word : index < 2 ^ 64) :
    ∃ place, readBytes file count index = .error (.readOutside place) := by
  -- Each turn reads a byte, until one is behind the end.
  induction count generalizing index with
  | zero => omega
  | succ count ih =>
    by_cases inside : index < file.length
    · obtain ⟨place, stopped⟩ := @ih (index + 1) (by omega) (by omega) (by omega)
      refine ⟨place, ?_⟩
      rw [readBytes, readByte_inside inside, add64_of_lt (by omega), stopped]
      rfl
    · refine ⟨index, ?_⟩
      rw [readBytes, readByte, List.getElem?_eq_none (by omega)]
      rfl

/-- A number inside the file is read. -/
theorem readField_inside {index width : Nat} (inside : index + width ≤ file.length)
    (small : file.length < 2 ^ 63) : readField file index width = .ok (elfField file index width) := by
  rw [readField, readBytes_inside inside (by omega)]
  rfl

/-- A number that is not inside the file is read outside of it. -/
theorem readField_outside {index width : Nat} (long : ¬ index + width ≤ file.length) (some : 0 < width)
    (small : file.length < 2 ^ 63) (word : index < 2 ^ 64) :
    ∃ place, readField file index width = .error (.readOutside place) := by
  -- The read runs past the end of the file at its last byte or before.
  obtain ⟨place, stopped⟩ := readBytes_outside (show file.length < index + width by omega) some small word
  refine ⟨place, ?_⟩
  rw [readField, stopped]
  rfl

/-- A number that is read without a fault is one of the file. -/
theorem readField_cases (index width : Nat) (small : file.length < 2 ^ 63) (some : 0 < width)
    (word : index < 2 ^ 64) :
    (index + width ≤ file.length ∧ readField file index width = .ok (elfField file index width)) ∨
    (¬ index + width ≤ file.length ∧
      ∃ place, readField file index width = .error (.readOutside place)) := by
  -- A field is inside the file or its read leaves it.
  by_cases inside : index + width ≤ file.length
  · exact .inl ⟨inside, readField_inside inside small⟩
  · exact .inr ⟨inside, readField_outside inside some small word⟩

/-- A computation that starts with a read outside the file does not stay in it. -/
theorem not_staysIn_bind {α β : Type} {first : Except MiraFault α} {next : α → Except MiraFault β}
    (outside : ∃ place, first = .error (.readOutside place)) : ¬ StaysIn (first >>= next) := by
  -- A read outside stops the computation, so what follows is not run.
  obtain ⟨place, stopped⟩ := outside
  intro stays
  apply stays place
  rw [stopped]
  rfl

/-- A segment whose program header is in the file is read from it. -/
theorem readSegment_inside {ph : Nat} (inside : ph + 48 ≤ file.length) (small : file.length < 2 ^ 63) :
    readSegment file ph = .ok (segmentOf file ph) := by
  -- No field of a header that is in the file wraps around.
  have place : ∀ offset, offset ≤ 40 → add64 ph offset = ph + offset :=
    fun offset bound => add64_of_lt (by omega)
  rw [readSegment, place 16 (by omega), place 8 (by omega), place 32 (by omega), place 40 (by omega),
    readField_inside (by omega) small, readField_inside (by omega) small,
    readField_inside (by omega) small, readField_inside (by omega) small]
  rfl

/-- A segment whose program header starts in the file but is cut off is read outside of it. -/
theorem readSegment_outside {ph : Nat} (start : ph + 4 ≤ file.length) (long : ¬ ph + 48 ≤ file.length)
    (small : file.length < 2 ^ 63) : ∃ place, readSegment file ph = .error (.readOutside place) := by
  have place : ∀ offset, offset ≤ 40 → add64 ph offset = ph + offset :=
    fun offset bound => add64_of_lt (by omega)
  rw [readSegment, place 16 (by omega), place 8 (by omega), place 32 (by omega), place 40 (by omega)]
  -- The fields are read in this order: the address, the offset and the two sizes.
  rcases readField_cases (ph + 16) 8 small (by omega) (by omega) with ⟨-, read⟩ | ⟨-, index, stopped⟩
  swap
  · exact ⟨index, by rw [stopped]; rfl⟩
  rw [read, ok_bind]
  rcases readField_cases (ph + 8) 8 small (by omega) (by omega) with ⟨-, read⟩ | ⟨-, index, stopped⟩
  swap
  · exact ⟨index, by rw [stopped]; rfl⟩
  rw [read, ok_bind]
  rcases readField_cases (ph + 32) 8 small (by omega) (by omega) with ⟨-, read⟩ | ⟨-, index, stopped⟩
  swap
  · exact ⟨index, by rw [stopped]; rfl⟩
  rw [read, ok_bind]
  -- The last field ends where the header does, so at the latest this one is behind the end.
  obtain ⟨index, stopped⟩ := readField_outside (show ¬ ph + 40 + 8 ≤ file.length by omega) (by omega)
    small (by omega)
  exact ⟨index, by rw [stopped]; rfl⟩

/-- The copy of a segment stops where the segment ends in memory. -/
theorem copySegment_eq {source page j memsz count k : Nat} (word : j + k + count < 2 ^ 64) (state : σ) :
    copySegment platform file source page j memsz count k state =
      copySection platform file source page (min count (memsz - (j + k))) k state := by
  -- Over the bytes that are left: the source tests the end of the segment at each of them.
  induction count generalizing k state with
  | zero =>
    rw [Nat.zero_min]
    rfl
  | succ count ih =>
    rw [copySegment, add64_of_lt (by omega)]
    by_cases more : j + k < memsz
    · have turns : min (count + 1) (memsz - (j + k)) = min count (memsz - (j + (k + 1))) + 1 := by omega
      rw [if_pos more, turns, copySection]
      have rest := fun state => @ih (k + 1) (by omega) state
      simp only [rest]
    · have none : min (count + 1) (memsz - (j + k)) = 0 := by omega
      rw [if_neg more, none]
      rfl

/-- The copy to a page as the source has it. -/
def copyPage (platform : Platform σ) (file : List UInt8) (segment : ElfSegment) (j page : Nat) (state : σ) :
    Except MiraFault σ :=
  if j < segment.filesz then
    copySegment platform file (add64 segment.offset j) page j segment.memsz
      (if add64 j 4096 ≤ segment.filesz then 4096
        else if segment.filesz > j then segment.filesz - j else 0) 0 state
  else .ok state

/-- Copy the part of a segment that belongs to a page, and map the page. -/
def fillSegmentPage (platform : Platform σ) (file : List UInt8) (segment : ElfSegment) (j page : Nat)
    (state : σ) : Except MiraFault σ := do
  let state ← copyPage platform file segment j page state
  onPlatform (platform.pagingMapPage (add64 segment.vaddr j) page (pagePresent ||| pageWrite) state)

/-- Below the last page the copy is the one of a section. -/
theorem copyPage_eq {j page : Nat} (more : j < segment.memsz)
    (straight : j < segment.copied → j + 4096 < 2 ^ 64) (state : σ) :
    copyPage platform file segment j page state =
      copyPart platform file (segmentSection segment) j page state := by
  unfold copyPage copyPart segmentSection ElfSegment.copied at *
  dsimp only
  by_cases part : j < segment.filesz
  · -- The source takes the smaller of the two ends in two steps.
    have both : j < min segment.filesz segment.memsz := by omega
    have next := straight both
    rw [if_pos part, if_pos both, add64_of_lt next]
    have size : (if j + 4096 ≤ segment.filesz then 4096
        else if segment.filesz > j then segment.filesz - j else 0) = min (segment.filesz - j) 4096 := by
      split
      · omega
      · omega
    have turns : min (min (segment.filesz - j) 4096) (segment.memsz - (j + 0)) =
        min (min segment.filesz segment.memsz - j) 4096 := by omega
    rw [size, copySegment_eq (by omega), turns]
  · rw [if_neg part, if_neg (by omega)]

/-- One turn of the loop over the pages of a segment. -/
theorem elfPageLoop_turn {fuel j : Nat} (more : j < segment.memsz) (state : σ) :
    elfPageLoop platform file segment (fuel + 1) j state = (do
      let (page, state) ← onPlatform (platform.pmmAllocPage state)
      if page = 0 then return (false, state)
      else do
        let state ← fillSegmentPage platform file segment j page state
        elfPageLoop platform file segment fuel (add64 j 4096) state) := by
  rw [elfPageLoop, if_pos more]
  -- The source has the copy under a condition, which is now inside the filling of the page.
  by_cases part : j < segment.filesz
  · simp only [fillSegmentPage, copyPage, if_pos part, bind_assoc]
  · simp only [fillSegmentPage, copyPage, if_neg part, bind_assoc]

/-- The loop over the pages of a segment ends at once where no page is left. -/
theorem elfPageLoop_done {fuel j : Nat} (done : segment.memsz ≤ j) (state : σ) :
    elfPageLoop platform file segment fuel j state = .ok (true, state) := by
  -- Past the memory size the loop ends at once, with or without fuel.
  cases fuel with
  | zero => rw [elfPageLoop, if_neg (by omega)]
  | succ fuel => rw [elfPageLoop, if_neg (by omega)]

/-- A turn of that loop after which it came to its end. -/
theorem elfPageLoop_loaded {fuel j : Nat} {state last : σ} (more : j < segment.memsz)
    (loaded : elfPageLoop platform file segment fuel j state = .ok (true, last)) :
    ∃ less page taken filled, fuel = less + 1 ∧ platform.pmmAllocPage state = .ok (page, taken) ∧
      page ≠ 0 ∧ fillSegmentPage platform file segment j page taken = .ok filled ∧
      elfPageLoop platform file segment less (add64 j 4096) filled = .ok (true, last) := by
  cases fuel with
  | zero =>
    rw [elfPageLoop, if_pos more] at loaded
    cases loaded
  | succ less =>
    rw [elfPageLoop_turn more] at loaded
    obtain ⟨⟨page, taken⟩, allocated, turned⟩ := bind_eq_ok.mp loaded
    dsimp only at turned
    -- Without a page the loop would have answered false.
    by_cases null : page = 0
    · rw [if_pos null] at turned
      cases turned
    · rw [if_neg null] at turned
      obtain ⟨filled, fills, rest⟩ := bind_eq_ok.mp turned
      exact ⟨less, page, taken, filled, rfl, onPlatform_ok.mp allocated, null, fills, rest⟩

/-- A loop over the pages of a segment that ends has a segment that ends below the last page. -/
theorem elfPageLoop_ends {fuel j : Nat} {state last : σ} (word : j < 2 ^ 64) (whole : j % 4096 = 0)
    (loaded : elfPageLoop platform file segment fuel j state = .ok (true, last)) :
    segment.memsz ≤ 2 ^ 64 - 4096 := by
  -- The offset is always that of a page, and the last one is below a longer segment.
  by_contra longer
  have more : ∀ i, i < 2 ^ 64 → i % 4096 = 0 → i < segment.memsz := by
    intro i small aligned
    omega
  induction fuel generalizing j state with
  | zero =>
    obtain ⟨less, -, -, -, none, -⟩ := elfPageLoop_loaded (more j word whole) loaded
    omega
  | succ fuel ih =>
    obtain ⟨less, page, taken, filled, same, -, -, -, rest⟩ :=
      elfPageLoop_loaded (more j word whole) loaded
    obtain rfl : less = fuel := by omega
    -- The next offset is one of a page too, also where it wraps around to zero.
    have next : add64 j 4096 < 2 ^ 64 ∧ add64 j 4096 % 4096 = 0 := by
      unfold add64
      omega
    exact ih next.1 next.2 rest

/-- The bytes that are copied end below the last page of the file. -/
theorem SegmentBytes.straight (bytes : SegmentBytes file segment) (small : file.length < 2 ^ 63) {j : Nat}
    (part : j < segment.copied) : j + 4096 < 2 ^ 64 := by
  -- Nothing is copied, or what is copied ends inside the file.
  rcases bytes with none | inside
  · omega
  · omega

/-- A segment that bytes are copied from has all of them in the file. -/
theorem SegmentBytes.inside (bytes : SegmentBytes file segment) {j : Nat} (part : j < segment.copied) :
    segment.offset + segment.copied ≤ file.length := bytes.resolve_left (by omega)

/-- The part of a segment that belongs to a page, without a wrap of its place in the file. -/
theorem copyPart_segment (bytes : SegmentBytes file segment) (small : file.length < 2 ^ 63)
    (j page : Nat) (state : σ) :
    copyPart platform file (segmentSection segment) j page state =
      if j < segment.copied then
        copySection platform file (segment.offset + j) page (min (segment.copied - j) 4096) 0 state
      else .ok state := by
  unfold copyPart segmentSection
  dsimp only
  -- Inside the part that is copied the sum with the offset does not wrap.
  by_cases part : j < segment.copied
  · have inside := bytes.inside part
    rw [if_pos part, if_pos part, add64_of_lt (by omega)]
  · rw [if_neg part, if_neg part]

/-- The part of a segment that belongs to a page is copied from inside the file. -/
theorem copyPart_segment_staysIn (bytes : SegmentBytes file segment) (small : file.length < 2 ^ 63)
    (j page : Nat) (state : σ) :
    StaysIn (copyPart platform file (segmentSection segment) j page state) := by
  rw [copyPart_segment bytes small]
  -- Only bytes of the segment are read, and these lie in the file.
  by_cases part : j < segment.copied
  · have inside := bytes.inside part
    rw [if_pos part]
    exact copySection_staysIn (by omega) (by omega) state
  · rw [if_neg part]
    exact staysIn_ok state

/-- The pages of a segment are filled from inside the file. -/
theorem elfPageLoop_staysIn (bytes : SegmentBytes file segment) (small : file.length < 2 ^ 63)
    (fuel j : Nat) (state : σ) : StaysIn (elfPageLoop platform file segment fuel j state) := by
  induction fuel generalizing j state with
  | zero =>
    rw [elfPageLoop]
    split
    · exact staysIn_halt _
    · exact staysIn_ok _
  | succ fuel ih =>
    -- Of a turn, the copy alone reads the file.
    by_cases more : j < segment.memsz
    · rw [elfPageLoop_turn more]
      refine (staysIn_onPlatform _).bind fun allocated _ => ?_
      obtain ⟨page, state⟩ := allocated
      dsimp only
      by_cases null : page = 0
      · rw [if_pos null]
        exact staysIn_ok _
      · rw [if_neg null, fillSegmentPage, copyPage_eq more (bytes.straight small)]
        refine StaysIn.bind ?_ fun state _ => ih _ state
        exact (copyPart_segment_staysIn bytes small j page state).bind fun state _ => staysIn_onPlatform _
    · rw [elfPageLoop_done (by omega)]
      exact staysIn_ok _

/-- The fields of a segment are 64-bit words. -/
theorem elfField_word (file : List UInt8) (index : Nat) : elfField file index 8 < 2 ^ 64 :=
  leValue_fieldOf_lt file index 8

/-- The place of a program header is a 64-bit word. -/
theorem segmentPlace_word (file : List UInt8) (i : Nat) : segmentPlace file i < 2 ^ 64 :=
  Nat.mod_lt _ (by omega)

/-- One turn of the loop over the program headers, for a header that is in the file. -/
theorem elfSegmentLoop_turn {fuel count i : Nat} (long : 58 ≤ file.length) (small : file.length < 2 ^ 63)
    (start : segmentPlace file i + 4 ≤ file.length) (state : σ) :
    elfSegmentLoop platform fuel file (count + 1) i state =
      if elfField file (segmentPlace file i) 4 ≠ ptLoad then
        elfSegmentLoop platform fuel file count (i + 1) state
      else readSegment file (segmentPlace file i) >>= fun segment =>
        elfPageLoop platform file segment fuel 0 state >>= fun result =>
          if result.1 then elfSegmentLoop platform fuel file count (i + 1) result.2
          else .ok (false, result.2) := by
  -- The place of the table and the size of its entries are read again in every turn.
  rw [elfSegmentLoop, readField_inside (show 32 + 8 ≤ file.length by omega) small, ok_bind,
    readField_inside (show 54 + 2 ≤ file.length by omega) small, ok_bind]
  dsimp only
  rw [← segmentPlace, readField_inside start small, ok_bind]
  rfl

/-- A program header of another kind is passed by. -/
theorem elfSegmentLoop_other {fuel count i : Nat} (long : 58 ≤ file.length) (small : file.length < 2 ^ 63)
    (start : segmentPlace file i + 4 ≤ file.length) (other : ¬ IsLoaded file i) (state : σ) :
    elfSegmentLoop platform fuel file (count + 1) i state =
      elfSegmentLoop platform fuel file count (i + 1) state := by
  rw [elfSegmentLoop_turn long small start]
  exact if_pos other

/-- A segment that is loaded has its pages filled. -/
theorem elfSegmentLoop_load {fuel count i : Nat} (long : 58 ≤ file.length) (small : file.length < 2 ^ 63)
    (read : HeaderRead file i) (load : IsLoaded file i) (state : σ) :
    elfSegmentLoop platform fuel file (count + 1) i state =
      (elfPageLoop platform file (segmentAt file i) fuel 0 state >>= fun result =>
        if result.1 then elfSegmentLoop platform fuel file count (i + 1) result.2
        else .ok (false, result.2)) := by
  -- The header is a loaded segment, so the loop copies its pages and goes on.
  have type : elfField file (segmentPlace file i) 4 = ptLoad := load
  rw [elfSegmentLoop_turn long small read.1, if_neg (not_not_intro type),
    readSegment_inside (read.2 load).1 small]
  rfl

/-- What is read for some program headers is in the file, as far as they are reached. -/
def ReadsFrom (file : List UInt8) (i count : Nat) : Prop :=
  ∀ k, i ≤ k → k < i + count → (∀ j, i ≤ j → j < k → SegmentEnds file j) → HeaderRead file k

/-- The first of the program headers is reached. -/
theorem ReadsFrom.first {count i : Nat} (reads : ReadsFrom file i (count + 1)) : HeaderRead file i :=
  reads i (Nat.le_refl i) (by omega) fun _ low high => absurd low (by omega)

/-- The others are reached if the loop over the pages of the first one ends. -/
theorem ReadsFrom.next {count i : Nat} (reads : ReadsFrom file i (count + 1)) (ends : SegmentEnds file i) :
    ReadsFrom file (i + 1) count := by
  intro k low high before
  apply reads k (by omega) (by omega)
  intro j above below
  -- The headers before it are the first one and those in between.
  by_cases here : j = i
  · rw [here]
    exact ends
  · exact before j (by omega) below

/-- The segments are loaded from inside the file, one after the other. -/
theorem elfSegmentLoop_staysIn {fuel count i : Nat} (long : 58 ≤ file.length)
    (small : file.length < 2 ^ 63) (reads : ReadsFrom file i count) (state : σ) :
    StaysIn (elfSegmentLoop platform fuel file count i state) := by
  -- Over the headers that are left, of which the first is always read.
  induction count generalizing i state with
  | zero => exact staysIn_ok _
  | succ count ih =>
    have read := reads.first
    by_cases load : IsLoaded file i
    · rw [elfSegmentLoop_load long small read load]
      refine (elfPageLoop_staysIn (read.2 load).2 small fuel 0 state).bind fun result ended => ?_
      obtain ⟨loaded, middle⟩ := result
      cases loaded with
      | false => exact staysIn_ok _
      -- The headers behind this one are reached only if its segment came to its end.
      | true => exact ih (reads.next fun _ => elfPageLoop_ends (by omega) rfl ended) middle
    · rw [elfSegmentLoop_other long small read.1 load]
      exact ih (reads.next fun here => absurd here load) state

/-- A turn of that loop after which it came to its end. -/
theorem elfSegmentLoop_loaded {fuel count i : Nat} {state last : σ} (long : 58 ≤ file.length)
    (small : file.length < 2 ^ 63) (read : HeaderRead file i)
    (loaded : elfSegmentLoop platform fuel file (count + 1) i state = .ok (true, last)) :
    ∃ middle, elfSegmentLoop platform fuel file count (i + 1) middle = .ok (true, last) ∧
      (IsLoaded file i → elfPageLoop platform file (segmentAt file i) fuel 0 state = .ok (true, middle)) ∧
      (¬ IsLoaded file i → middle = state) := by
  -- Only a header of the type to be loaded changes the state.
  by_cases load : IsLoaded file i
  · rw [elfSegmentLoop_load long small read load] at loaded
    obtain ⟨⟨done, middle⟩, pages, rest⟩ := bind_eq_ok.mp loaded
    cases done with
    | false => cases rest
    | true => exact ⟨middle, rest, fun _ => pages, fun other => absurd load other⟩
  · rw [elfSegmentLoop_other long small read.1 load] at loaded
    exact ⟨state, loaded, fun here => absurd here load, fun _ => rfl⟩

/-- A file whose segments were all loaded has segments that end. -/
theorem elfSegmentLoop_ends {fuel count i : Nat} {state last : σ} (long : 58 ≤ file.length)
    (small : file.length < 2 ^ 63) (reads : ReadsFrom file i count)
    (loaded : elfSegmentLoop platform fuel file count i state = .ok (true, last)) :
    ∀ k, i ≤ k → k < i + count → SegmentEnds file k := by
  induction count generalizing i state with
  | zero =>
    intro k low high
    omega
  | succ count ih =>
    obtain ⟨middle, rest, pages, -⟩ := elfSegmentLoop_loaded long small reads.first loaded
    -- The loop went on, so the pages of this segment came to their end.
    have ends : SegmentEnds file i := fun load => elfPageLoop_ends (by omega) rfl (pages load)
    have behind := ih (reads.next ends) rest
    intro k low high
    by_cases here : k = i
    · rw [here]
      exact ends
    · exact behind k (by omega) (by omega)

/-- A file with an accepted header has its segments loaded. -/
theorem elfLoad_accepted (accepted : ElfAccepted file) (long : 58 ≤ file.length)
    (small : file.length < 2 ^ 63) (fuel : Nat) (wantsEntry : Bool) (state : σ) :
    elfLoad platform fuel file wantsEntry state =
      (elfSegmentLoop platform fuel file (elfField file 56 2) 0 state >>= fun result =>
        .ok (result.1, if wantsEntry then some (elfField file 24 8) else none, result.2)) := by
  obtain ⟨magic, machine⟩ := accepted
  rw [elfLoad, readField_inside (show 0 + 4 ≤ file.length by omega) small, ok_bind,
    if_neg (not_not_intro magic), readField_inside (show 18 + 2 ≤ file.length by omega) small, ok_bind,
    if_neg (not_not_intro machine)]
  -- The entry is read only for a caller that wants it.
  cases wantsEntry with
  | false =>
    rw [readField_inside (show 56 + 2 ≤ file.length by omega) small]
    rfl
  | true =>
    rw [readField_inside (show 24 + 8 ≤ file.length by omega) small,
      readField_inside (show 56 + 2 ≤ file.length by omega) small]
    rfl

/-- A file whose header does not pass the checks is rejected, if the checks stay in it. -/
theorem elfLoad_rejected (rejected : ¬ ElfAccepted file) (long : 4 ≤ file.length)
    (machine : elfField file 0 4 = elfMagic → 20 ≤ file.length) (small : file.length < 2 ^ 63) (fuel : Nat)
    (wantsEntry : Bool) (state : σ) :
    elfLoad platform fuel file wantsEntry state = .ok (false, none, state) := by
  rw [elfLoad, readField_inside (show 0 + 4 ≤ file.length by omega) small, ok_bind]
  by_cases magic : elfField file 0 4 = elfMagic
  · -- The magic matches, so the machine is looked at and is another one.
    have longer := machine magic
    rw [if_neg (not_not_intro magic), readField_inside (show 18 + 2 ≤ file.length by omega) small, ok_bind,
      if_pos fun same => rejected ⟨magic, same⟩]
    rfl
  · rw [if_pos magic]
    rfl

/-- A file that fits is read inside only, and is loaded only as a whole. -/
theorem ElfFits.readsInside (fits : ElfFits file) (small : file.length < 2 ^ 63) : ElfReadsInside file := by
  intro σ platform fuel wantsEntry state
  by_cases accepted : ElfAccepted file
  swap
  · rw [elfLoad_rejected accepted fits.magic fits.machine small]
    refine ⟨staysIn_ok _, fun entry next loaded => ?_⟩
    cases loaded
  have long := fits.header accepted
  -- What the file has room for is said of the table as a whole, the loop asks from a header on.
  have reads : ReadsFrom file 0 (elfField file 56 2) := by
    intro k _ high before
    exact fits.segments accepted k (by omega) fun j below => before j (Nat.zero_le j) below
  rw [elfLoad_accepted accepted long small]
  constructor
  · exact (elfSegmentLoop_staysIn long small reads state).bind fun result _ => staysIn_ok _
  · intro entry next loaded
    obtain ⟨⟨done, last⟩, segments, result⟩ := bind_eq_ok.mp loaded
    -- A file that was loaded has had all of its loops end.
    obtain rfl : done = true := congrArg Prod.fst (Except.ok.inj result)
    have ends := elfSegmentLoop_ends long small reads segments
    exact fits.whole accepted fun i among => ends i (Nat.zero_le i) (by omega)

end

section

variable {file : List UInt8} {segment : ElfSegment}

/-- A turn of the loop over the pages of a segment where nothing fails. -/
theorem elfPageLoop_idle_turn {fuel j : Nat} (more : j < segment.memsz)
    (straight : j < segment.copied → j + 4096 < 2 ^ 64) :
    elfPageLoop idlePlatform file segment (fuel + 1) j () = (do
      let _ ← copyPart idlePlatform file (segmentSection segment) j 4096 ()
      elfPageLoop idlePlatform file segment fuel (add64 j 4096) ()) := by
  rw [elfPageLoop_turn more]
  -- The idle platform gives the same page each time and stores nothing.
  have page : onPlatform (idlePlatform.pmmAllocPage ()) = .ok (4096, ()) := rfl
  rw [page, ok_bind]
  dsimp only
  rw [if_neg (by decide), fillSegmentPage, copyPage_eq more straight]
  cases copyPart idlePlatform file (segmentSection segment) j 4096 () with
  | error fault => rfl
  | ok state => rfl

/-- A segment whose bytes are in the file is loaded there, with enough fuel. -/
theorem elfPageLoop_idle {fuel j : Nat} (bytes : SegmentBytes file segment) (small : file.length < 2 ^ 63)
    (ends : segment.memsz ≤ 2 ^ 64 - 4096) (enough : segment.memsz ≤ j + 4096 * fuel) :
    elfPageLoop idlePlatform file segment fuel j () = .ok (true, ()) := by
  induction fuel generalizing j with
  | zero => exact elfPageLoop_done (by omega) ()
  | succ fuel ih =>
    by_cases more : j < segment.memsz
    · -- The bytes of this page are in the file, if it has any.
      have copied : copyPart idlePlatform file (segmentSection segment) j 4096 () = .ok () := by
        rw [copyPart_segment bytes small]
        by_cases part : j < segment.copied
        · have inside := bytes.inside part
          rw [if_pos part]
          exact copySection_idle (by omega) (by omega)
        · rw [if_neg part]
      rw [elfPageLoop_idle_turn more (bytes.straight small), copied, add64_of_lt (by omega)]
      exact ih (by omega)
    · exact elfPageLoop_done (by omega) ()

/-- A segment whose bytes are not all in the file is read outside of it there, with enough fuel. -/
theorem elfPageLoop_idle_outside {fuel j : Nat} (some : 0 < segment.copied)
    (long : file.length < segment.offset + segment.copied) (small : file.length < 2 ^ 63)
    (word : segment.offset < 2 ^ 64) (start : segment.offset + j ≤ file.length ∨ j = 0)
    (enough : file.length < segment.offset + j + 4096 * fuel) (turns : 0 < fuel) :
    ∃ index, elfPageLoop idlePlatform file segment fuel j () = .error (.readOutside index) := by
  -- The pages in front of the end of the file are copied, the one that goes over it is not.
  induction fuel generalizing j with
  | zero => omega
  | succ fuel ih =>
    have part : j < segment.copied := by omega
    have more : j < segment.memsz := Nat.lt_of_lt_of_le part (Nat.min_le_right _ _)
    have place : add64 segment.offset j = segment.offset + j := add64_of_lt (by omega)
    rw [elfPageLoop_idle_turn more (by omega), copyPart]
    unfold segmentSection
    dsimp only
    rw [if_pos part, place]
    by_cases inside : segment.offset + j + min (segment.copied - j) 4096 ≤ file.length
    · -- The page ends inside the file, so it is not the last one that has bytes to copy.
      have whole : min (segment.copied - j) 4096 = 4096 := by omega
      rw [whole] at inside ⊢
      have copied : copySection idlePlatform file (segment.offset + j) 4096 4096 0 () = .ok () :=
        copySection_idle inside (Nat.lt_of_le_of_lt inside (Nat.lt_trans small (by norm_num)))
      have further : segment.offset + (j + 4096) ≤ file.length := by
        rw [← Nat.add_assoc]
        exact inside
      rw [copied, ok_bind, add64_of_lt (by omega)]
      exact @ih (j + 4096) (.inl further) (by omega) (by omega)
    · obtain ⟨index, stopped⟩ := @copySection_idle_outside file (segment.offset + j) 4096
        (min (segment.copied - j) 4096) 0 (.inr rfl) (by omega) (by omega) small (by omega)
      refine ⟨index, ?_⟩
      rw [stopped]
      rfl

/-- Where nothing fails, the next program header is read only if what is read for one is in the file. -/
theorem headerRead_of_staysIn {count i : Nat} (long : 58 ≤ file.length) (small : file.length < 2 ^ 63)
    (stays : StaysIn (elfSegmentLoop idlePlatform (2 ^ 52) file (count + 1) i ())) : HeaderRead file i := by
  by_cases start : segmentPlace file i + 4 ≤ file.length
  swap
  · -- The type of the segment is read outside.
    refine absurd stays ?_
    rw [elfSegmentLoop, readField_inside (show 32 + 8 ≤ file.length by omega) small, ok_bind,
      readField_inside (show 54 + 2 ≤ file.length by omega) small, ok_bind]
    exact not_staysIn_bind (readField_outside start (by omega) small (segmentPlace_word file i))
  refine ⟨start, fun load => ?_⟩
  have type : elfField file (segmentPlace file i) 4 = ptLoad := load
  rw [elfSegmentLoop_turn long small start, if_neg (not_not_intro type)] at stays
  -- The rest of the header is read for this type only.
  by_cases header : segmentPlace file i + 48 ≤ file.length
  swap
  · exact absurd stays (not_staysIn_bind (readSegment_outside start header small))
  refine ⟨header, ?_⟩
  rw [readSegment_inside header small, ok_bind] at stays
  by_contra cut
  obtain ⟨some, behind⟩ := not_or.mp cut
  -- The bytes of the segment are read outside.
  refine absurd stays (not_staysIn_bind ?_)
  apply elfPageLoop_idle_outside (Nat.pos_of_ne_zero some) (Nat.lt_of_not_le behind) small
    (elfField_word file _) (.inr rfl)
  · omega
  · omega

/-- Where nothing fails, a segment that ends and is in the file is followed by the next one. -/
theorem elfSegmentLoop_idle_next {count i : Nat} (long : 58 ≤ file.length) (small : file.length < 2 ^ 63)
    (read : HeaderRead file i) (ends : SegmentEnds file i) :
    elfSegmentLoop idlePlatform (2 ^ 52) file (count + 1) i () =
      elfSegmentLoop idlePlatform (2 ^ 52) file count (i + 1) () := by
  -- A loaded segment copies its pages within the fuel, and any other header is passed over.
  by_cases load : IsLoaded file i
  · have short := ends load
    rw [elfSegmentLoop_load long small read load, elfPageLoop_idle (read.2 load).2 small short (by omega)]
    rfl
  · exact elfSegmentLoop_other long small read.1 load ()

/-- Where nothing fails, what is read for the program headers is in the file, if the loader stays in it. -/
theorem readsFrom_of_staysIn {count i : Nat} (long : 58 ≤ file.length) (small : file.length < 2 ^ 63)
    (stays : StaysIn (elfSegmentLoop idlePlatform (2 ^ 52) file count i ())) : ReadsFrom file i count := by
  induction count generalizing i with
  | zero =>
    intro k low high
    omega
  | succ count ih =>
    -- The first header is read in any case, and those behind it once it is done.
    have read := headerRead_of_staysIn long small stays
    intro k low high before
    by_cases here : k = i
    · rw [here]
      exact read
    · rw [elfSegmentLoop_idle_next long small read (before i (Nat.le_refl i) (by omega))] at stays
      exact ih stays k (by omega) (by omega) fun j above below => before j (by omega) below

/-- Where nothing fails, segments that end and are in the file are loaded. -/
theorem elfSegmentLoop_idle {count i : Nat} (long : 58 ≤ file.length) (small : file.length < 2 ^ 63)
    (reads : ReadsFrom file i count) (ends : ∀ k, i ≤ k → k < i + count → SegmentEnds file k) :
    elfSegmentLoop idlePlatform (2 ^ 52) file count i () = .ok (true, ()) := by
  -- Induction on the headers, each of which comes to its end.
  induction count generalizing i with
  | zero => rfl
  | succ count ih =>
    have here := ends i (Nat.le_refl i) (by omega)
    rw [elfSegmentLoop_idle_next long small reads.first here]
    exact ih (reads.next here) fun k low high => ends k (by omega) (by omega)

/-- A loader that stays in the file has the header in it that it asks for. -/
theorem header_of_staysIn {wantsEntry : Bool} (small : file.length < 2 ^ 63)
    (stays : StaysIn (elfLoad idlePlatform (2 ^ 52) file wantsEntry ())) :
    4 ≤ file.length ∧ (elfField file 0 4 = elfMagic → 20 ≤ file.length) ∧
      (ElfAccepted file → 58 ≤ file.length) := by
  rw [elfLoad] at stays
  -- The fields are asked for in this order, and each of them only if the one before was right.
  rcases readField_cases 0 4 small (by omega) (by omega) with ⟨four, read⟩ | ⟨-, outside⟩
  swap
  · exact absurd stays (not_staysIn_bind outside)
  rw [read, ok_bind] at stays
  refine ⟨by omega, ?_⟩
  by_cases magic : elfField file 0 4 = elfMagic
  swap
  · exact ⟨fun same => absurd same magic, fun accepted => absurd accepted.1 magic⟩
  rw [if_neg (not_not_intro magic)] at stays
  rcases readField_cases 18 2 small (by omega) (by omega) with ⟨twenty, read⟩ | ⟨-, outside⟩
  swap
  · exact absurd stays (not_staysIn_bind outside)
  rw [read, ok_bind] at stays
  refine ⟨fun _ => by omega, fun accepted => ?_⟩
  rw [if_neg (not_not_intro accepted.2)] at stays
  by_contra short
  -- The number of program headers is behind the entry.
  have last := readField_outside (show ¬ 56 + 2 ≤ file.length by omega) (by omega) small (by omega)
  cases wantsEntry with
  | false =>
    rw [if_neg (by decide), ok_bind] at stays
    exact absurd stays (not_staysIn_bind last)
  | true =>
    rcases readField_cases 24 8 small (by omega) (by omega) with ⟨-, read⟩ | ⟨-, outside⟩
    · rw [if_pos rfl, read, Except.map_ok, ok_bind] at stays
      exact absurd stays (not_staysIn_bind last)
    · obtain ⟨index, stopped⟩ := outside
      rw [if_pos rfl, stopped] at stays
      exact stays index rfl

end

/-- A file of one segment that is loaded, with some bytes behind its program header. -/
def elfFile (segment : ElfSegment) (body : List UInt8) : List UInt8 :=
  leBytes 4 elfMagic ++ [2, 1, 1, 0] ++ leBytes 8 0 ++ leBytes 2 2 ++ leBytes 2 elfMachine ++ leBytes 4 1 ++
    leBytes 8 segment.vaddr ++ leBytes 8 64 ++ leBytes 8 0 ++ leBytes 4 0 ++ leBytes 2 64 ++ leBytes 2 56 ++
    leBytes 2 1 ++ leBytes 2 64 ++ leBytes 2 0 ++ leBytes 2 0 ++
    -- The program header starts here.
    leBytes 4 ptLoad ++ leBytes 4 7 ++ leBytes 8 segment.offset ++ leBytes 8 segment.vaddr ++ leBytes 8 0 ++
    leBytes 8 segment.filesz ++ leBytes 8 segment.memsz ++ leBytes 8 4096 ++ body

/-- A segment of three bytes of code. -/
def smallSegment : ElfSegment where
  vaddr := 0x400000
  offset := 120
  filesz := 3
  memsz := 3

/-- A file of that segment. -/
def smallElf : List UInt8 := elfFile smallSegment [0x90, 0x90, 0xC3]

/-- What the loader finds in that file. -/
theorem smallElf_fields : ElfAccepted smallElf ∧ elfField smallElf 56 2 = 1 ∧
    segmentPlace smallElf 0 = 64 ∧ IsLoaded smallElf 0 ∧ segmentAt smallElf 0 = smallSegment := by
  -- The file is short enough to be read by evaluation.
  refine ⟨⟨?_, ?_⟩, ?_, ?_, ?_, ?_⟩
  · decide
  · decide
  · decide
  · decide
  · unfold IsLoaded
    decide
  · decide

end MiraOS

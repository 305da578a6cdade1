import Mathlib.Data.Nat.Find
import MiraOS.Kernel.MiraMapping

/-! When the loader reads only the container. -/

namespace MiraOS

open Machine

/-- The description of a section of a container. -/
def sectionAt (file : List UInt8) (i : Nat) : MiraSectDesc :=
  sectDescOf (fieldOf file ((headerOf file).sectTableOff + i * miraSectDescBytes) miraSectDescBytes)

/-- What the loader checks of a section. -/
structure SectionPasses (file : List UInt8) (sd : MiraSectDesc) : Prop where
  short : sd.filesz ≤ sd.memsz
  -- The end of the section is found in 64-bit arithmetic.
  inside : add64 sd.fileOff sd.filesz ≤ file.length

/-- The sections before one pass the checks, and the loops over their pages come to an end. -/
def Reachable (file : List UInt8) (i : Nat) : Prop :=
  ∀ j, j < i → SectionPasses file (sectionAt file j) ∧ (sectionAt file j).memsz ≤ 2 ^ 64 - 4096

/-- No section that is reached and passes the checks has an end that wraps around. -/
def SectionsInside (file : List UInt8) : Prop :=
  ∀ i, i < (headerOf file).sectCount → Reachable file i → SectionPasses file (sectionAt file i) →
    (sectionAt file i).fileOff + (sectionAt file i).filesz < 2 ^ 64

/-- A computation does not read outside the container. -/
def StaysIn {α : Type} (outcome : Except MiraFault α) : Prop :=
  ∀ index, outcome ≠ .error (.readOutside index)

/-- The loader reads only the container, whatever the platform answers. -/
def ReadsOnlyFile (file : List UInt8) (type : Nat) : Prop :=
  ∀ (σ : Type) (platform : Platform σ) (fuel : Nat) (state : σ),
    StaysIn (miraLoad platform fuel file type state)

section

variable {α β σ : Type} {platform : Platform σ} {file : List UInt8} {sd : MiraSectDesc}

/-- A result is no read outside. -/
theorem staysIn_ok (value : α) : StaysIn (.ok value : Except MiraFault α) := by
  -- A value is no read outside.
  intro index same
  cases same

/-- A stop of the platform is no read outside. -/
theorem staysIn_halt (reason : Halt) : StaysIn (.error (.halt reason) : Except MiraFault α) := by
  -- Halting is no read outside.
  intro index same
  cases same

/-- A call of the platform reads nothing of the container. -/
theorem staysIn_onPlatform (call : Except Halt α) : StaysIn (onPlatform call) := by
  -- The platform reads no byte of the file.
  cases call with
  | error reason => exact staysIn_halt reason
  | ok value => exact staysIn_ok value

/-- A call of the platform has the result that the loader goes on with. -/
theorem onPlatform_ok {call : Except Halt α} {value : α} :
    onPlatform call = .ok value ↔ call = .ok value := by
  -- The wrapper only changes how a stop is named.
  cases call with
  | error reason =>
    constructor
    · intro same
      cases same
    · intro same
      cases same
  | ok other =>
    constructor
    · intro same
      cases same
      rfl
    · intro same
      cases same
      rfl

/-- One computation after another. -/
theorem StaysIn.bind {first : Except MiraFault α} {next : α → Except MiraFault β}
    (before : StaysIn first) (after : ∀ value, first = .ok value → StaysIn (next value)) :
    StaysIn (first >>= next) := by
  -- The first part stays inside, and where it succeeds so does what follows.
  cases first with
  | error fault => exact fun index stopped => before index (congrArg Except.error (Except.error.inj stopped))
  | ok value => exact after value rfl

/-- A copy from inside the container. -/
theorem copySection_staysIn {source page count k : Nat} (inside : source + k + count ≤ file.length)
    (word : source + k + count < 2 ^ 64) (state : σ) :
    StaysIn (copySection platform file source page count k state) := by
  -- Induction on the bytes, each read at an index of the file.
  induction count generalizing k state with
  | zero => exact staysIn_ok state
  | succ count ih =>
    have place : add64 source k = source + k := add64_of_lt (by omega)
    rw [copySection, place, readByte_inside (by omega)]
    refine (staysIn_ok _).bind fun byte _ => (staysIn_onPlatform _).bind fun state _ => ?_
    exact ih (by omega) (by omega) state

/-- Copy the part of a section that belongs to a page. -/
def copyPart (platform : Platform σ) (file : List UInt8) (sd : MiraSectDesc) (j page : Nat) (state : σ) :
    Except MiraFault σ :=
  if j < sd.filesz then
    copySection platform file (add64 sd.fileOff j) page (min (sd.filesz - j) 4096) 0 state
  else .ok state

/-- Fill a page with its part of a section, and map it. -/
def fillPage (platform : Platform σ) (file : List UInt8) (sd : MiraSectDesc) (flags j page : Nat)
    (state : σ) : Except MiraFault σ := do
  let state ← onPlatform (memset platform page 0 4096 0 state)
  let state ← copyPart platform file sd j page state
  onPlatform (platform.pagingMapPage (add64 sd.vaddr j) page flags state)

/-- One turn of the loop over the pages of a section. -/
theorem pageLoop_turn {flags fuel j : Nat} (more : j < sd.memsz) (state : σ) :
    MiraExec.pageLoop platform file sd flags (fuel + 1) j state = (do
      let (page, state) ← onPlatform (platform.pmmAllocPage state)
      if page = 0 then return (false, state)
      else do
        let state ← fillPage platform file sd (flags ||| pageWrite) j page state
        MiraExec.pageLoop platform file sd flags fuel (add64 j 4096) state) := by
  -- The number of bytes to copy is cut off at a page by the code, and by a minimum here.
  have least : ∀ left : Nat, (if left < 4096 then left else 4096) = min left 4096 := by
    intro left
    split <;> omega
  rw [MiraExec.pageLoop, if_pos more]
  by_cases part : j < sd.filesz
  · simp only [fillPage, copyPart, least, if_pos part, bind_assoc]
  · simp only [fillPage, copyPart, if_neg part, bind_assoc]

/-- The loop over the pages of a section ends at once where no page is left. -/
theorem pageLoop_done {flags fuel j : Nat} (done : sd.memsz ≤ j) (state : σ) :
    MiraExec.pageLoop platform file sd flags fuel j state = .ok (true, state) := by
  -- Past the memory size the loop ends at once, with or without fuel.
  cases fuel with
  | zero => rw [MiraExec.pageLoop, if_neg (by omega)]
  | succ fuel => rw [MiraExec.pageLoop, if_neg (by omega)]

/-- A turn of that loop after which it came to its end. -/
theorem pageLoop_loaded {flags fuel j : Nat} {state last : σ} (more : j < sd.memsz)
    (loaded : MiraExec.pageLoop platform file sd flags fuel j state = .ok (true, last)) :
    ∃ less page taken filled, fuel = less + 1 ∧ platform.pmmAllocPage state = .ok (page, taken) ∧
      page ≠ 0 ∧ fillPage platform file sd (flags ||| pageWrite) j page taken = .ok filled ∧
      MiraExec.pageLoop platform file sd flags less (add64 j 4096) filled = .ok (true, last) := by
  cases fuel with
  | zero =>
    rw [MiraExec.pageLoop, if_pos more] at loaded
    cases loaded
  | succ less =>
    rw [pageLoop_turn more] at loaded
    obtain ⟨⟨page, taken⟩, allocated, turned⟩ := bind_eq_ok.mp loaded
    dsimp only at turned
    -- A null page ends the loop with the other answer.
    by_cases null : page = 0
    · rw [if_pos null] at turned
      cases turned
    · rw [if_neg null] at turned
      obtain ⟨filled, fills, rest⟩ := bind_eq_ok.mp turned
      exact ⟨less, page, taken, filled, rfl, onPlatform_ok.mp allocated, null, fills, rest⟩

/-- A section that does not pass the checks ends the loop over the sections. -/
theorem sectionLoop_fails {fuel off count i : Nat} (read : readSectDesc file off i = .ok sd)
    (fails : ¬ SectionPasses file sd) (state : σ) :
    MiraExec.sectionLoop platform fuel file off (count + 1) i state = .ok (false, state) := by
  rw [MiraExec.sectionLoop, read, ok_bind]
  -- The two checks come one after the other, with the same answer.
  by_cases long : sd.filesz > sd.memsz
  · rw [if_pos long]
    rfl
  · rw [if_neg long, if_pos]
    · rfl
    · by_contra inside
      exact fails ⟨by omega, by omega⟩

/-- One turn of the loop over the sections, for a section that passes the checks. -/
theorem sectionLoop_turn {fuel off count i : Nat} (read : readSectDesc file off i = .ok sd)
    (passes : SectionPasses file sd) (state : σ) :
    MiraExec.sectionLoop platform fuel file off (count + 1) i state =
      (MiraExec.pageLoop platform file sd (MiraExec.miraFlagsToPaging sd.sectType sd.sectFlags) fuel 0 state
        >>= fun result =>
          if result.1 then MiraExec.sectionLoop platform fuel file off count (i + 1) result.2
          else .ok (false, result.2)) := by
  -- The two bounds of the source are those the section passes.
  have short := passes.short
  have inside := passes.inside
  rw [MiraExec.sectionLoop, read, ok_bind, if_neg (by omega), if_neg (by omega)]
  rfl

/-- A turn of that loop after which it came to its end. -/
theorem sectionLoop_loaded {fuel off count i : Nat} {state last : σ}
    (loaded : MiraExec.sectionLoop platform fuel file off (count + 1) i state = .ok (true, last)) :
    ∃ sd middle, readSectDesc file off i = .ok sd ∧ SectionPasses file sd ∧
      MiraExec.pageLoop platform file sd (MiraExec.miraFlagsToPaging sd.sectType sd.sectFlags) fuel 0 state =
        .ok (true, middle) ∧
      MiraExec.sectionLoop platform fuel file off count (i + 1) middle = .ok (true, last) := by
  obtain ⟨sd, read, -⟩ := bind_eq_ok.mp loaded
  -- A section that fails its checks ends the load without an image.
  by_cases passes : SectionPasses file sd
  · rw [sectionLoop_turn read passes] at loaded
    obtain ⟨⟨done, middle⟩, pages, rest⟩ := bind_eq_ok.mp loaded
    cases done with
    | false => cases rest
    | true => exact ⟨sd, middle, read, passes, pages, rest⟩
  · rw [sectionLoop_fails read passes] at loaded
    cases loaded

/-- A page is filled from inside the container, if the section does not wrap around. -/
theorem fillPage_staysIn {flags j page : Nat} (passes : SectionPasses file sd)
    (straight : sd.fileOff + sd.filesz < 2 ^ 64) (state : σ) :
    StaysIn (fillPage platform file sd flags j page state) := by
  have ends := passes.inside
  rw [add64_of_lt straight] at ends
  refine (staysIn_onPlatform _).bind fun state _ => StaysIn.bind ?_ fun state _ => staysIn_onPlatform _
  -- Clearing and mapping do not look at the container, and the copy ends with the section.
  unfold copyPart
  by_cases part : j < sd.filesz
  · rw [if_pos part, add64_of_lt (by omega)]
    exact copySection_staysIn (by omega) (by omega) state
  · rw [if_neg part]
    exact staysIn_ok state

/-- The pages of a section that does not wrap around are filled from inside the container. -/
theorem pageLoop_staysIn (passes : SectionPasses file sd) (straight : sd.fileOff + sd.filesz < 2 ^ 64)
    (flags fuel j : Nat) (state : σ) :
    StaysIn (MiraExec.pageLoop platform file sd flags fuel j state) := by
  -- Induction on the fuel: every turn copies from the part of the section, which ends before any wrap.
  induction fuel generalizing j state with
  | zero =>
    rw [MiraExec.pageLoop]
    split
    · exact staysIn_halt _
    · exact staysIn_ok _
  | succ fuel ih =>
    by_cases more : j < sd.memsz
    · rw [pageLoop_turn more]
      refine (staysIn_onPlatform _).bind fun allocated _ => ?_
      obtain ⟨page, state⟩ := allocated
      dsimp only
      by_cases null : page = 0
      · rw [if_pos null]
        exact staysIn_ok _
      · rw [if_neg null]
        exact (fillPage_staysIn passes straight state).bind fun state _ => ih _ state
    · rw [pageLoop_done (by omega)]
      exact staysIn_ok _

/-- A loop over the pages of a section that ends has a section that ends below the last page. -/
theorem pageLoop_ends {flags fuel j : Nat} {state last : σ} (word : j < 2 ^ 64) (whole : j % 4096 = 0)
    (loaded : MiraExec.pageLoop platform file sd flags fuel j state = .ok (true, last)) :
    sd.memsz ≤ 2 ^ 64 - 4096 := by
  -- The offset is always that of a page, and the last one is below a longer section.
  by_contra longer
  have more : ∀ i, i < 2 ^ 64 → i % 4096 = 0 → i < sd.memsz := by
    intro i small aligned
    omega
  induction fuel generalizing j state with
  | zero =>
    obtain ⟨less, -, -, -, none, -⟩ := pageLoop_loaded (more j word whole) loaded
    omega
  | succ fuel ih =>
    obtain ⟨less, page, taken, filled, same, -, -, -, rest⟩ := pageLoop_loaded (more j word whole) loaded
    obtain rfl : less = fuel := by omega
    -- The next offset is one of a page too, also where it wraps around to zero.
    have next : add64 j 4096 < 2 ^ 64 ∧ add64 j 4096 % 4096 = 0 := by
      unfold add64
      omega
    exact ih next.1 next.2 rest

/-- The fields of a section are 64-bit words. -/
theorem sectionAt_word (file : List UInt8) (i : Nat) :
    (sectionAt file i).fileOff < 2 ^ 64 ∧ (sectionAt file i).filesz < 2 ^ 64 ∧
      (sectionAt file i).memsz < 2 ^ 64 ∧ (sectionAt file i).vaddr < 2 ^ 64 := by
  have word : ∀ (bytes : List UInt8) (place : Nat), leValue (fieldOf bytes place 8) < 2 ^ 64 :=
    fun bytes place => leValue_fieldOf_lt bytes place 8
  exact ⟨word _ _, word _ _, word _ _, word _ _⟩

/-- The table of sections of a valid container is inside it. -/
theorem readSectDesc_inside {type i : Nat} (checks : HeaderChecks file type)
    (small : file.length < 2 ^ 63) (among : i < (headerOf file).sectCount) :
    readSectDesc file (headerOf file).sectTableOff i = .ok (sectionAt file i) := by
  -- The table is short and starts inside the file, so that its end does not wrap around.
  have count := checks.sectCount
  have start := checks.tableInside
  have ends := checks.tableEnd
  rw [add64_of_lt (by simp only [miraSectDescBytes]; omega)] at ends
  simp only [miraSectDescBytes] at ends
  have place : add64 (headerOf file).sectTableOff (i * miraSectDescBytes) =
      (headerOf file).sectTableOff + i * miraSectDescBytes :=
    add64_of_lt (by simp only [miraSectDescBytes]; omega)
  have inside : (headerOf file).sectTableOff + i * miraSectDescBytes + miraSectDescBytes ≤
      file.length := by
    simp only [miraSectDescBytes]
    omega
  rw [readSectDesc, place, readBytes_inside inside (by omega)]
  rfl

/-- One section after the other is loaded from inside the container. -/
theorem sectionLoop_staysIn {type fuel i count : Nat} (checks : HeaderChecks file type)
    (small : file.length < 2 ^ 63) (straight : SectionsInside file)
    (reach : Reachable file i) (last : i + count = (headerOf file).sectCount) (state : σ) :
    StaysIn (MiraExec.sectionLoop platform fuel file (headerOf file).sectTableOff count i state) := by
  -- Over the sections that are left, with those before them known to be loaded.
  induction count generalizing i state with
  | zero => exact staysIn_ok _
  | succ count ih =>
    have read := readSectDesc_inside checks small (show i < (headerOf file).sectCount by omega)
    by_cases passes : SectionPasses file (sectionAt file i)
    swap
    · rw [sectionLoop_fails read passes]
      exact staysIn_ok _
    rw [sectionLoop_turn read passes]
    refine (pageLoop_staysIn passes (straight i (by omega) reach passes) _ fuel 0 state).bind
      fun result ended => ?_
    obtain ⟨loaded, middle⟩ := result
    cases loaded with
    | false => exact staysIn_ok _
    | true =>
      -- The section came to its end, so the next one is reached.
      have ends := pageLoop_ends (by omega) rfl ended
      have further : Reachable file (i + 1) := by
        intro j below
        by_cases here : j = i
        · rw [here]
          exact ⟨passes, ends⟩
        · exact reach j (by omega)
      exact ih further (by omega) middle

end

/-- A platform that always has a page, and on which nothing fails. -/
def idlePlatform : Platform Unit where
  pmmAllocPage := fun state => .ok (4096, state)
  storeByte := fun _ _ state => .ok state
  pagingMapPage := fun _ _ _ state => .ok state

section

variable {file : List UInt8} {sd : MiraSectDesc}

/-- Filling memory never fails there. -/
theorem memset_idle (dest : Nat) (val : UInt8) (count i : Nat) :
    memset idlePlatform dest val count i () = .ok () := by
  -- Induction on the count: the idle platform accepts every store.
  induction count generalizing i with
  | zero => rfl
  | succ count ih => exact ih (i + 1)

/-- A copy from inside the container succeeds there. -/
theorem copySection_idle {source page count k : Nat} (inside : source + k + count ≤ file.length)
    (word : source + k + count < 2 ^ 64) : copySection idlePlatform file source page count k () = .ok () := by
  -- Every byte that is read is in the file, and the idle platform takes it.
  induction count generalizing k with
  | zero => rfl
  | succ count ih =>
    have place : add64 source k = source + k := add64_of_lt (by omega)
    rw [copySection, place, readByte_inside (by omega)]
    exact ih (by omega) (by omega)

/-- A copy that runs over the end of the container reads outside of it. -/
theorem copySection_idle_outside {source page count k : Nat} (start : source + k ≤ file.length ∨ k = 0)
    (long : file.length < source + k + count) (some : 0 < count) (word : file.length < 2 ^ 63)
    (small : source < 2 ^ 64) :
    ∃ index, copySection idlePlatform file source page count k () = .error (.readOutside index) := by
  -- The turns before the end read a byte, the one behind it stops.
  induction count generalizing k with
  | zero => omega
  | succ count ih =>
    have place : add64 source k = source + k := add64_of_lt (by omega)
    by_cases inside : source + k < file.length
    · obtain ⟨index, stopped⟩ := @ih (k + 1) (.inl (by omega)) (by omega) (by omega)
      refine ⟨index, ?_⟩
      rw [copySection, place, readByte_inside inside]
      exact stopped
    · refine ⟨source + k, ?_⟩
      rw [copySection, place, readByte, List.getElem?_eq_none (by omega)]
      rfl

/-- A turn of the loop over the pages of a section there. -/
theorem pageLoop_idle_turn {flags fuel j : Nat} (more : j < sd.memsz) :
    MiraExec.pageLoop idlePlatform file sd flags (fuel + 1) j () = (do
      let _ ← copyPart idlePlatform file sd j 4096 ()
      MiraExec.pageLoop idlePlatform file sd flags fuel (add64 j 4096) ()) := by
  rw [pageLoop_turn more]
  -- The same page is given and cleared each time.
  have page : onPlatform (idlePlatform.pmmAllocPage ()) = .ok (4096, ()) := rfl
  have zeroed : onPlatform (memset idlePlatform 4096 0 4096 0 ()) = .ok () := by
    rw [memset_idle]
    rfl
  rw [page, ok_bind]
  dsimp only
  rw [if_neg (by decide), fillPage, zeroed, ok_bind]
  cases copyPart idlePlatform file sd j 4096 () with
  | error fault => rfl
  | ok state => rfl

/-- A section that does not wrap around is loaded there, with enough fuel. -/
theorem pageLoop_idle {flags fuel j : Nat} (passes : SectionPasses file sd)
    (straight : sd.fileOff + sd.filesz < 2 ^ 64) (ends : sd.memsz ≤ 2 ^ 64 - 4096)
    (enough : sd.memsz ≤ j + 4096 * fuel) :
    MiraExec.pageLoop idlePlatform file sd flags fuel j () = .ok (true, ()) := by
  have limit := passes.inside
  rw [add64_of_lt straight] at limit
  induction fuel generalizing j with
  | zero => exact pageLoop_done (by omega) ()
  | succ fuel ih =>
    by_cases more : j < sd.memsz
    · -- The bytes of this page are in the container, if it has any.
      have copied : copyPart idlePlatform file sd j 4096 () = .ok () := by
        unfold copyPart
        by_cases part : j < sd.filesz
        · rw [if_pos part, add64_of_lt (by omega)]
          exact copySection_idle (by omega) (by omega)
        · rw [if_neg part]
      rw [pageLoop_idle_turn more, copied, add64_of_lt (by omega)]
      exact ih (by omega)
    · exact pageLoop_done (by omega) ()

/-- A section that wraps around is read outside the container there, with enough fuel. -/
theorem pageLoop_idle_outside {flags fuel j : Nat} (passes : SectionPasses file sd)
    (wraps : 2 ^ 64 ≤ sd.fileOff + sd.filesz) (small : file.length < 2 ^ 63) (word : sd.fileOff < 2 ^ 64)
    (start : sd.fileOff + j ≤ file.length ∨ j = 0)
    (enough : file.length < sd.fileOff + j + 4096 * fuel) (some : 0 < fuel) :
    ∃ index, MiraExec.pageLoop idlePlatform file sd flags fuel j () = .error (.readOutside index) := by
  -- The section goes on behind the end of the file, so a page is reached that does so too.
  have short := passes.short
  induction fuel generalizing j with
  | zero => omega
  | succ fuel ih =>
    have part : j < sd.filesz := by omega
    have place : add64 sd.fileOff j = sd.fileOff + j := add64_of_lt (by omega)
    rw [pageLoop_idle_turn (by omega), copyPart, if_pos part, place]
    by_cases inside : sd.fileOff + j + min (sd.filesz - j) 4096 ≤ file.length
    · -- The page is a whole one, as the section is longer than the file.
      have whole : min (sd.filesz - j) 4096 = 4096 := by
        apply Nat.min_eq_right
        by_contra less
        rw [Nat.min_eq_left (Nat.le_of_not_le less)] at inside
        omega
      rw [whole] at inside ⊢
      have further : sd.fileOff + (j + 4096) ≤ file.length := by
        rw [← Nat.add_assoc]
        exact inside
      have copied : copySection idlePlatform file (sd.fileOff + j) 4096 4096 0 () = .ok () :=
        copySection_idle inside (Nat.lt_of_le_of_lt inside (Nat.lt_trans small (by norm_num)))
      rw [copied, ok_bind, add64_of_lt (by omega)]
      exact @ih (j + 4096) (.inl further) (by omega) (by omega)
    · obtain ⟨index, stopped⟩ := @copySection_idle_outside file (sd.fileOff + j) 4096
        (min (sd.filesz - j) 4096) 0 (.inr rfl) (by omega) (by omega) small (by omega)
      refine ⟨index, ?_⟩
      rw [stopped]
      rfl

/-- The first section that wraps around is read outside the container there. -/
theorem sectionLoop_idle_outside {type i bad count : Nat} (checks : HeaderChecks file type)
    (small : file.length < 2 ^ 63) (last : i + count = (headerOf file).sectCount) (before : i ≤ bad)
    (among : bad < (headerOf file).sectCount) (reach : Reachable file bad)
    (passes : SectionPasses file (sectionAt file bad))
    (wraps : 2 ^ 64 ≤ (sectionAt file bad).fileOff + (sectionAt file bad).filesz)
    (straight : ∀ j, j < bad → (sectionAt file j).fileOff + (sectionAt file j).filesz < 2 ^ 64) :
    ∃ index, MiraExec.sectionLoop idlePlatform (2 ^ 52) file (headerOf file).sectTableOff count i () =
      .error (.readOutside index) := by
  -- The sections in front of it are loaded one after the other.
  induction count generalizing i with
  | zero => omega
  | succ count ih =>
    have here : SectionPasses file (sectionAt file i) := by
      by_cases same : i = bad
      · rw [same]
        exact passes
      · exact (reach i (by omega)).1
    have word := sectionAt_word file i
    rw [sectionLoop_turn (readSectDesc_inside checks small (by omega)) here]
    -- At the section that reads outside the loop stops; a section in front of it is loaded.
    by_cases same : i = bad
    · subst same
      obtain ⟨index, stopped⟩ := @pageLoop_idle_outside file (sectionAt file i)
        (MiraExec.miraFlagsToPaging (sectionAt file i).sectType (sectionAt file i).sectFlags) (2 ^ 52) 0
        passes wraps small word.1 (.inr rfl) (by omega) (by omega)
      refine ⟨index, ?_⟩
      rw [stopped]
      rfl
    · have ends := (reach i (by omega)).2
      obtain ⟨index, stopped⟩ := @ih (i + 1) (by omega) (by omega)
      refine ⟨index, ?_⟩
      rw [pageLoop_idle here (straight i (by omega)) ends (by omega), ok_bind]
      exact stopped

end

/-- A valid container with a section that wraps around is read outside where nothing fails. -/
theorem not_readsOnlyFile {file : List UInt8} {type bad : Nat} (small : file.length < 2 ^ 63)
    (valid : miraBinIsValid file type = .ok true) (among : bad < (headerOf file).sectCount)
    (reach : Reachable file bad) (passes : SectionPasses file (sectionAt file bad))
    (wraps : 2 ^ 64 ≤ (sectionAt file bad).fileOff + (sectionAt file bad).filesz)
    (straight : ∀ j, j < bad → (sectionAt file j).fileOff + (sectionAt file j).filesz < 2 ^ 64) :
    ¬ ReadsOnlyFile file type := by
  intro reads
  -- The first section whose end wraps reads outside of the file, whatever the others do.
  have checks := (isValid_iff.mp valid).1
  obtain ⟨index, stopped⟩ := @sectionLoop_idle_outside file type 0 bad (headerOf file).sectCount checks
    small (by omega) (by omega) among reach passes wraps straight
  apply reads Unit idlePlatform (2 ^ 52) () index
  rw [miraLoad_eq _ valid, mapImage, ← sectionLoop_eq, stopped]
  rfl

/-- The header and the section of a signed container of one section. -/
theorem sectionContainer_section (sd : MiraSectDesc) (body : List UInt8) :
    (headerOf (signed (sectionContainer sd body))).sectCount = 1 ∧
      (headerOf (signed (sectionContainer sd body))).entryPoint = 0x400000 ∧
      sectionAt (signed (sectionContainer sd body)) 0 = sectDescOf (sectDescBytes sd) := by
  -- The description lies behind the header, where signing changes nothing.
  obtain ⟨checks, header⟩ := sectionContainer_checks sd body
  have signedHeader := headerOf_setChecksum checks.size (rightChecksum (sectionContainer sd body))
  rw [header] at signedHeader
  have field : fieldOf (signed (sectionContainer sd body)) 64 40 = sectDescBytes sd := by
    rw [signed, setChecksum_field checks.size _ (.inr (by omega))]
    rfl
  refine ⟨?_, ?_, ?_⟩
  · rw [signed, signedHeader]
  · rw [signed, signedHeader]
    rfl
  · rw [sectionAt, signed, signedHeader, ← signed]
    exact congrArg sectDescOf field

/-- The small program has one section. -/
theorem smallProgram_section : (headerOf smallProgram).sectCount = 1 ∧
    (headerOf smallProgram).entryPoint = 0x400000 ∧ sectionAt smallProgram 0 = smallSection := by
  obtain ⟨count, entry, found⟩ := sectionContainer_section smallSection [0x90, 0x90, 0xC3]
  exact ⟨count, entry, found.trans rfl⟩

/-- A program whose section starts eight bytes in front of the file. -/
def wrappedProgram : List UInt8 :=
  signed (sectionContainer ⟨miraSectText, 0, 0x400000, 8, 8, 2 ^ 64 - 8⟩ [])

end MiraOS

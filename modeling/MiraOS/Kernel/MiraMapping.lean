import MiraOS.Kernel.MiraLoad
import MiraOS.Kernel.MiraValidate

/-! Loading the sections of a container is mapping them one after the other. -/

namespace MiraOS

open Machine

section

variable {σ : Type} (platform : Platform σ)

/-- Map the sections of a container in order, and stop at the first one that fails. -/
def mapSections (fuel : Nat) (file : List UInt8) (sectTableOff : Nat) :
    Nat → Nat → σ → Except MiraFault (Bool × σ)
  | 0, _, state => .ok (true, state)
  | count + 1, i, state => do
    let sd ← readSectDesc file sectTableOff i
    let (mapped, state) ← miraMapSection platform fuel file sd state
    if mapped then mapSections fuel file sectTableOff count (i + 1) state else return (false, state)

/-- The image of a container whose sections are mapped in order. -/
def mapImage (fuel : Nat) (file : List UInt8) (state : σ) :
    Except MiraFault (Option MiraLoadedImage × σ) := do
  let header := headerOf file
  let (mapped, state) ← mapSections platform fuel file header.sectTableOff header.sectCount 0 state
  if mapped then
    return (some { entryPoint := header.entryPoint, cr3 := 0, userStackTop := 0 }, state)
  else return (none, state)

/-- With the flag for writing set, every section gets the same two flags in kernel/bin/mira_exec.c. -/
theorem execFlags_eq (sectType sectFlags : Nat) :
    MiraExec.miraFlagsToPaging sectType sectFlags ||| pageWrite = pagePresent ||| pageWrite := by
  -- Whether or not the flags ask for it, the bit is set in the end.
  unfold MiraExec.miraFlagsToPaging
  split
  · split
    · decide
    · rfl
  · rfl

/-- The two ways to find the flags of a section differ in the flag only that is always set anyway. -/
theorem flagsToPaging_agree (sectType sectFlags : Nat) :
    MiraExec.miraFlagsToPaging sectType sectFlags ||| pageWrite =
      MiraBinMap.miraFlagsToPaging sectType ||| pageWrite := by
  rw [execFlags_eq]
  -- Both tables give a section the same rights apart from the write bit, which is added to both.
  unfold MiraBinMap.miraFlagsToPaging
  split
  · decide
  · rfl

/-- The two loops over the pages of a section do the same, if they set the same flags in the end. -/
theorem pageLoop_agree (file : List UInt8) (sd : MiraSectDesc) {one two : Nat}
    (flags : one ||| pageWrite = two ||| pageWrite) (fuel j : Nat) (state : σ) :
    MiraExec.pageLoop platform file sd one fuel j state =
      MiraBinMap.pageLoop platform file sd two fuel j state := by
  -- Induction on the fuel: the two loops make the same calls with the same flags.
  induction fuel generalizing j state with
  | zero => rfl
  | succ fuel ih =>
    rw [MiraExec.pageLoop, MiraBinMap.pageLoop, flags]
    simp only [ih]

/-- The loop over the sections is the mapping of one section after the other. -/
theorem sectionLoop_eq (fuel : Nat) (file : List UInt8) (sectTableOff count i : Nat) (state : σ) :
    MiraExec.sectionLoop platform fuel file sectTableOff count i state =
      mapSections platform fuel file sectTableOff count i state := by
  induction count generalizing i state with
  | zero => rfl
  | succ count ih =>
    rw [MiraExec.sectionLoop, mapSections]
    congr 1
    funext sd
    -- A section that fails one of the checks ends both loops.
    unfold miraMapSection
    by_cases long : sd.filesz > sd.memsz
    · rw [if_pos long, if_pos long]
      rfl
    rw [if_neg long, if_neg long]
    by_cases past : add64 sd.fileOff sd.filesz > file.length
    · rw [if_pos past, if_pos past]
      rfl
    rw [if_neg past, if_neg past]
    simp only [pageLoop_agree platform file sd (flagsToPaging_agree sd.sectType sd.sectFlags), ih]

/-- A valid container is loaded as its sections are mapped. -/
theorem miraLoad_eq {file : List UInt8} {type : Nat} (valid : miraBinIsValid file type = .ok true)
    (fuel : Nat) (state : σ) : miraLoad platform fuel file type state = mapImage platform fuel file state := by
  -- The header was checked before by the same tests.
  have long : miraHeaderBytes ≤ file.length := (isValid_iff.mp valid).1.size
  have checked : MiraExec.miraValidateHeader file type = .ok true := by
    rw [miraBinIsValid, if_neg (by omega)] at valid
    exact valid
  unfold miraLoad mapImage
  rw [if_neg (by omega), checked, readMiraHeader_inside long]
  simp only [← sectionLoop_eq]
  rfl

/-- A container that is not valid is not loaded. -/
theorem miraLoad_invalid {file : List UInt8} {type : Nat} (invalid : miraBinIsValid file type ≠ .ok true)
    (fuel : Nat) (state : σ) : miraLoad platform fuel file type state = .ok (none, state) := by
  -- A file that is too short is turned down by the first test, any other by the checks.
  have rejected := isValid_false invalid
  unfold miraLoad
  by_cases short : file.length < miraHeaderBytes
  · rw [if_pos short]
  · rw [miraBinIsValid, if_neg short] at rejected
    rw [if_neg short, rejected]
    rfl

end

/--
Loading a valid container in the kernel is mapping its sections one after the other.

From every state of the page allocator, the page tables and the memory, with as much fuel as may be,
both end with the same answer in the same state, or both stop for the same reason.
-/
theorem load_maps_sections {file : List UInt8} {type : Nat} (valid : miraBinIsValid file type = .ok true)
    (tables fuel : Nat) (paging : Paging Pmm) :
    miraLoad (kernelPlatform tables) fuel file type paging =
      mapImage (kernelPlatform tables) fuel file paging :=
  miraLoad_eq (kernelPlatform tables) valid fuel paging

/-- The bytes of the description of a section. -/
def sectDescBytes (sd : MiraSectDesc) : List UInt8 :=
  leBytes 4 sd.sectType ++ leBytes 4 sd.sectFlags ++ leBytes 8 sd.vaddr ++ leBytes 8 sd.memsz ++
    leBytes 8 sd.filesz ++ leBytes 8 sd.fileOff

/-- A container of one section, with some bytes behind its table. -/
def sectionContainer (sd : MiraSectDesc) (body : List UInt8) : List UInt8 :=
  headerBytes { bareHeader 64 with sectCount := 1 } ++ (sectDescBytes sd ++ body)

/-- The header of a container is the one that its first bytes stand for. -/
theorem headerOf_append {front : List UInt8} (rest : List UInt8) (long : 64 ≤ front.length) :
    headerOf (front ++ rest) = headerOf front := by
  -- Every field of the header lies within the first 64 bytes.
  have same : ∀ place width, place + width ≤ 64 →
      fieldOf (front ++ rest) place width = fieldOf front place width :=
    fun place width inside => fieldOf_append (inside.trans long)
  unfold headerOf
  simp (disch := decide) only [same]

/-- A container of one section passes the checks of its header, whatever the section is. -/
theorem sectionContainer_checks (sd : MiraSectDesc) (body : List UInt8) :
    HeaderChecks (sectionContainer sd body) miraBinTypeMex ∧
      headerOf (sectionContainer sd body) = { bareHeader 64 with sectCount := 1 } := by
  -- The container is a header of 64 bytes, a description of 40 and the body.
  have front : (headerBytes { bareHeader 64 with sectCount := 1 }).length = 64 := rfl
  have header : headerOf (sectionContainer sd body) = { bareHeader 64 with sectCount := 1 } := by
    rw [sectionContainer, headerOf_append _ (Nat.le_of_eq front.symm)]
    rfl
  have length : (sectionContainer sd body).length = 104 + body.length := by
    simp only [sectionContainer, List.length_append, front, sectDescBytes, leBytes_length]
    omega
  -- Each check compares two numbers that are now known.
  refine ⟨⟨?_, ?_, ?_, ?_, ?_, ?_, ?_, ?_, ?_⟩, header⟩ <;>
    simp only [header, length, bareHeader, miraHeaderBytes, miraSectDescBytes, add64]
  · omega
  · exact Nat.le_refl 64
  · decide
  · exact Nat.le_refl 64
  · omega
  · omega

/-- A signed container of one section is valid. -/
theorem sectionContainer_valid (sd : MiraSectDesc) (body : List UInt8) :
    miraBinIsValid (signed (sectionContainer sd body)) miraBinTypeMex = .ok true := by
  obtain ⟨checks, header⟩ := sectionContainer_checks sd body
  -- Signing changes the checksum only, and the checks read everything else.
  obtain ⟨signedChecks, size, right⟩ := signed_checksum checks
  refine isValid_iff.mpr ⟨signedChecks, ?_, right⟩
  rw [size, header]
  exact Nat.le_refl 64

/-- A section of sixteen bytes of code, of which three are in the file. -/
def smallSection : MiraSectDesc where
  sectType := miraSectText
  sectFlags := 0
  vaddr := 0x400000
  memsz := 16
  filesz := 3
  fileOff := 104

/-- A program of that section. -/
def smallProgram : List UInt8 := signed (sectionContainer smallSection [0x90, 0x90, 0xC3])

end MiraOS

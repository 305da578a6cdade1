import MiraOS.Kernel.MiraFormat
import MiraOS.Machine.Blocks
import MiraOS.Machine.Checksum

/-! What the two checks of a container accept. -/

namespace MiraOS

open Machine

/-- A container with another checksum in its header. -/
def setChecksum (file : List UInt8) (value : Nat) : List UInt8 := overlay file 56 (leBytes 8 value)

/-- The checksum that the header of a container should have. -/
def rightChecksum (file : List UInt8) : Nat := (miraChecksum64 (setChecksum file 0)).toNat

/-- What both checks ask of the fields of a header, apart from its checksum. -/
structure HeaderChecks (file : List UInt8) (expectedType : Nat) : Prop where
  size : miraHeaderBytes ≤ file.length
  magic : (headerOf file).magic = miraBinMagic
  abiVersion : (headerOf file).abiVersion = miraBinAbiVersion
  type : (headerOf file).type = expectedType
  headerSize : miraHeaderBytes ≤ (headerOf file).headerSize
  sectCount : (headerOf file).sectCount ≤ 65535
  tableBehind : miraHeaderBytes ≤ (headerOf file).sectTableOff
  tableInside : (headerOf file).sectTableOff < file.length
  tableEnd : add64 (headerOf file).sectTableOff ((headerOf file).sectCount * miraSectDescBytes) ≤
    file.length

section

variable {file : List UInt8} {index count : Nat}

/-- A byte inside a container is read. -/
theorem readByte_inside (inside : index < file.length) : readByte file index = .ok file[index] := by
  rw [readByte, List.getElem?_eq_getElem inside]

/-- Bytes inside a container are read in order. -/
theorem readBytes_inside (inside : index + count ≤ file.length) (word : index + count < 2 ^ 64) :
    readBytes file count index = .ok (fieldOf file index count) := by
  -- Each turn takes the first of the bytes that are left.
  induction count generalizing index with
  | zero => rfl
  | succ count ih =>
    have here : index < file.length := by omega
    have rest := @ih (index + 1) (by omega) (by omega)
    have next : add64 index 1 = index + 1 := add64_of_lt (by omega)
    rw [fieldOf, List.drop_eq_getElem_cons here, List.take_succ_cons]
    refine bind_eq_ok.mpr ⟨_, readByte_inside here, bind_eq_ok.mpr ⟨_, ?_, rfl⟩⟩
    rw [next]
    exact rest

/-- The fields of a header are those of the container itself. -/
theorem headerOf_fieldOf (file : List UInt8) : headerOf (fieldOf file 0 miraHeaderBytes) = headerOf file := by
  -- Every field of the header lies in the bytes that are copied.
  have same : ∀ place width, place + width ≤ miraHeaderBytes →
      fieldOf (fieldOf file 0 miraHeaderBytes) place width = fieldOf file place width := by
    intro place width inside
    rw [fieldOf_fieldOf inside, Nat.zero_add]
  unfold headerOf
  simp (disch := decide) only [same]

/-- The header of a container that is long enough is read. -/
theorem readMiraHeader_inside (long : miraHeaderBytes ≤ file.length) :
    readMiraHeader file = .ok (headerOf file) := by
  have inside : 0 + miraHeaderBytes ≤ file.length := by omega
  -- The header is the first 64 bytes, which do not wrap.
  have read := readBytes_inside inside (by decide : 0 + miraHeaderBytes < 2 ^ 64)
  refine bind_eq_ok.mpr ⟨_, read, ?_⟩
  rw [headerOf_fieldOf]
  rfl

/-- The bytes of the header without its checksum. -/
theorem headerBytes_zeroed (long : miraHeaderBytes ≤ file.length) :
    headerBytes { headerOf file with checksum := 0 } = file.take 56 ++ leBytes 8 0 := by
  -- Each field gives its own bytes back, and they follow one another.
  have back : ∀ place width, place + width ≤ 64 →
      leBytes width (leValue (fieldOf file place width)) = fieldOf file place width := by
    intro place width inside
    exact leBytes_fieldOf (inside.trans long)
  have start : fieldOf file 0 8 = file.take 8 := rfl
  unfold headerBytes headerOf
  simp (disch := decide) only [back]
  simp only [start, take_append_fieldOf, Nat.reduceAdd]

/-- The bytes behind the header are hashed in order. -/
theorem hashLoop_inside (inside : index + count ≤ file.length) (h : UInt64) :
    hashLoop file count index h = .ok ((fieldOf file index count).foldl hashStep h) := by
  -- Induction on the bytes, the first of which is in the file.
  induction count generalizing index h with
  | zero => rfl
  | succ count ih =>
    have here : index < file.length := by omega
    rw [fieldOf, List.drop_eq_getElem_cons here, List.take_succ_cons, List.foldl_cons]
    exact bind_eq_ok.mpr ⟨_, readByte_inside here, ih (by omega) _⟩

/-- Hashing the header without its checksum and then the rest is hashing the whole container so. -/
theorem hashed_eq (long : miraHeaderBytes ≤ file.length) :
    hashLoop file (file.length - miraHeaderBytes) miraHeaderBytes
      ((headerBytes { headerOf file with checksum := 0 }).foldl hashStep hashSeed) =
      .ok (miraChecksum64 (setChecksum file 0)) := by
  -- The rest is what follows the eight bytes of the checksum.
  have rest : fieldOf file miraHeaderBytes (file.length - miraHeaderBytes) = file.drop 64 := by
    rw [fieldOf, List.take_of_length_le]
    · rfl
    · rw [List.length_drop]
  rw [hashLoop_inside (by omega), headerBytes_zeroed long, rest, ← List.foldl_append]
  rfl

/-- The last step of both checks compares the hash of the whole container. -/
theorem compared_eq (long : miraHeaderBytes ≤ file.length) : (do
    let h ← hashLoop file (file.length - miraHeaderBytes) miraHeaderBytes
      ((headerBytes { headerOf file with checksum := 0 }).foldl hashStep hashSeed)
    return decide (h.toNat = (headerOf file).checksum) : Except MiraFault Bool) =
    .ok (decide ((miraChecksum64 (setChecksum file 0)).toNat = (headerOf file).checksum)) := by
  -- The source hashes the header with a zero checksum and then the rest, which is the file with its checksum
  -- field cleared.
  rw [hashed_eq long]
  rfl

/-- A check that rejects what it has to, in front of others. -/
theorem reject_or {wrong right : Prop} [Decidable wrong] [Decidable right]
    {rest : Except MiraFault Bool} (others : rest = .ok (decide right)) :
    (if wrong then .ok false else rest) = .ok (decide (¬ wrong ∧ right)) := by
  -- A wrong field rejects, any other leaves the decision to what follows.
  by_cases rejects : wrong
  · rw [if_pos rejects]
    simp [rejects]
  · rw [if_neg rejects, others]
    simp [rejects]

/-- The checks of the fields that a header fails or passes, in the order of the code. -/
theorem headerChecks_iff {expectedType : Nat} (long : miraHeaderBytes ≤ file.length) :
    HeaderChecks file expectedType ↔ ¬ (headerOf file).magic ≠ miraBinMagic ∧
      ¬ (headerOf file).abiVersion ≠ miraBinAbiVersion ∧ ¬ (headerOf file).type ≠ expectedType ∧
      ¬ (headerOf file).headerSize < miraHeaderBytes ∧ ¬ (headerOf file).sectCount > 65535 ∧
      ¬ (headerOf file).sectTableOff < miraHeaderBytes ∧ ¬ (headerOf file).sectTableOff ≥ file.length ∧
      ¬ add64 (headerOf file).sectTableOff ((headerOf file).sectCount * miraSectDescBytes) >
        file.length := by
  -- The checks and the tests of the code say the same, each the other way round.
  simp only [ne_eq, not_not, not_lt, not_le, gt_iff_lt, ge_iff_le]
  constructor
  · rintro ⟨-, magic, abiVersion, type, headerSize, sectCount, behind, inside, ends⟩
    exact ⟨magic, abiVersion, type, headerSize, sectCount, behind, inside, ends⟩
  · rintro ⟨magic, abiVersion, type, headerSize, sectCount, behind, inside, ends⟩
    exact ⟨long, magic, abiVersion, type, headerSize, sectCount, behind, inside, ends⟩

open Classical in
/-- What the check of kernel/bin/mira_bin_validate.c answers. -/
theorem binValidate_eq (file : List UInt8) (expectedType : Nat) :
    MiraBinValidate.miraValidateHeader file expectedType =
      .ok (decide (HeaderChecks file expectedType ∧ (headerOf file).checksum = rightChecksum file)) := by
  unfold MiraBinValidate.miraValidateHeader
  by_cases short : file.length < miraHeaderBytes
  · have none : ¬ HeaderChecks file expectedType := fun checks => by
      have := checks.size
      omega
    rw [if_pos short]
    simp [none]
  · have long : miraHeaderBytes ≤ file.length := by omega
    rw [if_neg short, readMiraHeader_inside long]
    -- Each check is one step, down to the comparison of the checksums.
    refine (reject_or (reject_or (reject_or (reject_or (reject_or (reject_or (reject_or (reject_or
      (reject_or (compared_eq long)))))))))).trans ?_
    congr 2
    rw [eq_iff_iff, headerChecks_iff long, rightChecksum, eq_comm]
    simp only [and_assoc, short, not_false_eq_true, true_and]

open Classical in
/-- What the check of kernel/bin/mira_exec.c answers. -/
theorem isValid_eq (file : List UInt8) (expectedType : Nat) :
    miraBinIsValid file expectedType = .ok (decide (HeaderChecks file expectedType ∧
      (headerOf file).headerSize ≤ miraHeaderBytes ∧ (headerOf file).checksum = rightChecksum file)) := by
  unfold miraBinIsValid MiraExec.miraValidateHeader
  by_cases short : file.length < miraHeaderBytes
  · have none : ¬ HeaderChecks file expectedType := fun checks => by
      have := checks.size
      omega
    rw [if_pos short]
    simp [none]
  · have long : miraHeaderBytes ≤ file.length := by omega
    rw [if_neg short, readMiraHeader_inside long]
    -- The same steps, with one more for the size of the header.
    refine (reject_or (reject_or (reject_or (reject_or (reject_or (reject_or (reject_or (reject_or
      (reject_or (reject_or (compared_eq long))))))))))).trans ?_
    congr 2
    rw [eq_iff_iff, headerChecks_iff long, rightChecksum, eq_comm]
    simp only [and_assoc, short, not_false_eq_true, true_and, gt_iff_lt, not_lt]

/-- A container is valid exactly when its header passes the checks and has the right checksum. -/
theorem isValid_iff {expectedType : Nat} : miraBinIsValid file expectedType = .ok true ↔
    HeaderChecks file expectedType ∧ (headerOf file).headerSize ≤ miraHeaderBytes ∧
      (headerOf file).checksum = rightChecksum file := by
  classical
  rw [isValid_eq, Except.ok.injEq, decide_eq_true_iff]

/-- A container that is not valid is rejected. -/
theorem isValid_false {expectedType : Nat} (invalid : miraBinIsValid file expectedType ≠ .ok true) :
    miraBinIsValid file expectedType = .ok false := by
  -- The validator answers with a decision, so it says no where it does not say yes.
  classical
  rw [isValid_eq] at invalid ⊢
  rw [Ne, Except.ok.injEq, Bool.not_eq_true] at invalid
  rw [invalid]

/-- The other check accepts a container without a look at the size of a longer header. -/
theorem binValidate_iff {expectedType : Nat} :
    MiraBinValidate.miraValidateHeader file expectedType = .ok true ↔
      HeaderChecks file expectedType ∧ (headerOf file).checksum = rightChecksum file := by
  classical
  rw [binValidate_eq, Except.ok.injEq, decide_eq_true_iff]

end

/-- The factor of a step is odd, so it has an inverse. -/
theorem hashFactor_inverse : (1099511628211 * 14886173955864302971 : UInt64) = 1 := by decide

/-- A step of the checksum loses neither the state nor the byte. -/
theorem hashStep_mixes : Mixes hashStep := by
  -- The factor can be taken back, and then the byte or the state.
  have cancel : ∀ one two : UInt64, one * 1099511628211 = two * 1099511628211 → one = two := by
    intro one two same
    have back := congrArg (· * (14886173955864302971 : UInt64)) same
    simpa only [UInt64.mul_assoc, hashFactor_inverse, UInt64.mul_one] using back
  constructor
  · intro byte one two same
    have back := congrArg (· ^^^ byte.toUInt64) (cancel _ _ same)
    simpa only [UInt64.xor_assoc, UInt64.xor_self, UInt64.xor_zero] using back
  · intro state one two same
    have back := congrArg (state ^^^ ·) (cancel _ _ same)
    simp only [← UInt64.xor_assoc, UInt64.xor_self, UInt64.zero_xor] at back
    exact UInt8.toUInt64_inj.mp back

section

variable {file other : List UInt8} {i : Nat}

/-- A container with another checksum is as long as before. -/
theorem setChecksum_length (long : miraHeaderBytes ≤ file.length) (value : Nat) :
    (setChecksum file value).length = file.length := by
  have room : 64 ≤ file.length := long
  rw [setChecksum, overlay_length (by omega), leBytes_length]
  omega

/-- The bytes of a container with another checksum, one by one. -/
theorem setChecksum_getElem? (long : miraHeaderBytes ≤ file.length) (value j : Nat) :
    (setChecksum file value)[j]? =
      if 56 ≤ j ∧ j < 64 then (leBytes 8 value)[j - 56]? else file[j]? := by
  have inside : 56 + (leBytes 8 value).length ≤ file.length := by
    rw [leBytes_length]
    exact long
  -- The eight bytes of the checksum start at offset 56.
  rw [setChecksum, overlay_getElem? inside, leBytes_length]

/-- Fields in front of the checksum and behind it are those of the container. -/
theorem setChecksum_field (long : miraHeaderBytes ≤ file.length) (value : Nat) {place width : Nat}
    (apart : place + width ≤ 56 ∨ 64 ≤ place) :
    fieldOf (setChecksum file value) place width = fieldOf file place width := by
  -- The field lies on one side of the checksum.
  apply fieldOf_congr
  intro j low high
  rw [setChecksum_getElem? long, if_neg (by omega)]

/-- Only the checksum of the header changes. -/
theorem headerOf_setChecksum (long : miraHeaderBytes ≤ file.length) (value : Nat) :
    headerOf (setChecksum file value) =
      { headerOf file with checksum := value % 2 ^ 64 } := by
  have same := fun place width => @setChecksum_field file long value place width
  -- The number is cut to the eight bytes that there are for it.
  have checksum : fieldOf (setChecksum file value) 56 8 = leBytes 8 value := by
    apply List.ext_getElem?
    intro j
    by_cases small : j < 8
    · rw [fieldOf_getElem? small, setChecksum_getElem? long, if_pos (by omega)]
      congr 1
      omega
    · rw [fieldOf, List.getElem?_take_eq_none (by omega), List.getElem?_eq_none]
      rw [leBytes_length]
      omega
  unfold headerOf
  simp (disch := decide) only [same, checksum, leValue_leBytes]
  rfl

/-- Another checksum on top leaves nothing of the one before. -/
theorem setChecksum_setChecksum (long : miraHeaderBytes ≤ file.length) (first second : Nat) :
    setChecksum (setChecksum file first) second = setChecksum file second := by
  apply List.ext_getElem?
  intro j
  have still : miraHeaderBytes ≤ (setChecksum file first).length := by
    rw [setChecksum_length long]
    exact long
  rw [setChecksum_getElem? still, setChecksum_getElem? long, setChecksum_getElem? long]
  -- Both write the same eight places, and the second one stays.
  by_cases here : 56 ≤ j ∧ j < 64
  · rw [if_pos here, if_pos here]
  · rw [if_neg here, if_neg here, if_neg here]

/-- The checksum that a header should have does not depend on the one it has. -/
theorem rightChecksum_setChecksum (long : miraHeaderBytes ≤ file.length) (value : Nat) :
    rightChecksum (setChecksum file value) = rightChecksum file := by
  rw [rightChecksum, setChecksum_setChecksum long, rightChecksum]

/-- The checks of the other fields do not look at the checksum. -/
theorem headerChecks_setChecksum {expectedType : Nat} (checks : HeaderChecks file expectedType)
    (value : Nat) : HeaderChecks (setChecksum file value) expectedType := by
  -- The checksum is eight bytes of the header that no other field has.
  have long := checks.size
  have header := headerOf_setChecksum long value
  have length := setChecksum_length long value
  -- The nine checks, none of which reads the checksum.
  refine ⟨?_, ?_, ?_, ?_, ?_, ?_, ?_, ?_, ?_⟩
  · rw [length]
    exact long
  · rw [header]
    exact checks.magic
  · rw [header]
    exact checks.abiVersion
  · rw [header]
    exact checks.type
  · rw [header]
    exact checks.headerSize
  · rw [header]
    exact checks.sectCount
  · rw [header]
    exact checks.tableBehind
  · rw [header, length]
    exact checks.tableInside
  · rw [header, length]
    exact checks.tableEnd

/-- A change in the checksum field changes the number that it stands for, and nothing else. -/
theorem differs_in_checksum (differs : DiffersAt file other i) (long : miraHeaderBytes ≤ file.length)
    (low : 56 ≤ i) (high : i < 64) :
    rightChecksum other = rightChecksum file ∧ (headerOf other).checksum ≠ (headerOf file).checksum := by
  have room : 64 ≤ file.length := long
  have otherLong : miraHeaderBytes ≤ other.length := by
    rw [differs.length]
    exact long
  -- Without their checksums the two containers are the same.
  have same : setChecksum other 0 = setChecksum file 0 := by
    apply List.ext_getElem?
    intro j
    rw [setChecksum_getElem? otherLong, setChecksum_getElem? long]
    by_cases here : 56 ≤ j ∧ j < 64
    · rw [if_pos here, if_pos here]
    · rw [if_neg here, if_neg here]
      exact differs.others j (by omega)
  refine ⟨?_, fun equal => ?_⟩
  · rw [rightChecksum, same, rightChecksum]
  · -- Equal numbers would have equal bytes, also at the place where they differ.
    have fields : fieldOf other 56 8 = fieldOf file 56 8 := by
      refine leValue_inj ?_ equal
      rw [fieldOf_length (by rw [differs.length]; exact room), fieldOf_length room]
    apply differs.here
    have one := @fieldOf_getElem? other 56 8 (i - 56) (by omega)
    have two := @fieldOf_getElem? file 56 8 (i - 56) (by omega)
    have place : 56 + (i - 56) = i := by omega
    rw [place] at one two
    rw [← one, ← two, fields]

/-- A change outside the checksum field changes the checksum that the header should have. -/
theorem differs_out_of_checksum (differs : DiffersAt file other i)
    (long : miraHeaderBytes ≤ file.length) (outside : i < 56 ∨ 64 ≤ i) :
    rightChecksum other ≠ rightChecksum file ∧ (headerOf other).checksum = (headerOf file).checksum := by
  have otherLong : miraHeaderBytes ≤ other.length := by
    rw [differs.length]
    exact long
  -- The containers without their checksums differ in the same place.
  have zeroed : DiffersAt (setChecksum file 0) (setChecksum other 0) i := by
    refine ⟨?_, ?_, ?_, fun j apart => ?_⟩
    · rw [setChecksum_length otherLong, setChecksum_length long]
      exact differs.length
    · rw [setChecksum_length long]
      exact differs.inside
    · rw [setChecksum_getElem? otherLong, setChecksum_getElem? long, if_neg (by omega), if_neg (by omega)]
      exact differs.here
    · rw [setChecksum_getElem? otherLong, setChecksum_getElem? long]
      by_cases here : 56 ≤ j ∧ j < 64
      · rw [if_pos here, if_pos here]
      · rw [if_neg here, if_neg here]
        exact differs.others j apart
  refine ⟨fun same => ?_, ?_⟩
  · exact hashStep_mixes.foldl_differs hashSeed zeroed (UInt64.toNat_inj.mp same).symm
  · have fields : fieldOf other 56 8 = fieldOf file 56 8 := by
      apply fieldOf_congr
      intro j low high
      exact differs.others j (by omega)
    exact congrArg leValue fields

end

/-- A container with the checksum that it should have. -/
def signed (file : List UInt8) : List UInt8 := setChecksum file (rightChecksum file)

/-- A container that passes the other checks has the right checksum once it is signed. -/
theorem signed_checksum {file : List UInt8} {expectedType : Nat} (checks : HeaderChecks file expectedType) :
    HeaderChecks (signed file) expectedType ∧
      (headerOf (signed file)).headerSize = (headerOf file).headerSize ∧
      (headerOf (signed file)).checksum = rightChecksum (signed file) := by
  -- The checksum leaves out its own place, so that it is right when it is written there.
  have header := headerOf_setChecksum checks.size (rightChecksum file)
  have word : rightChecksum file < 2 ^ 64 := UInt64.toNat_lt _
  refine ⟨headerChecks_setChecksum checks _, ?_, ?_⟩
  · rw [signed, header]
  · rw [signed, header, rightChecksum_setChecksum checks.size]
    exact Nat.mod_eq_of_lt word

/-- A header without sections, with a size of its own choice. -/
def bareHeader (headerSize : Nat) : MiraBinHeader where
  magic := miraBinMagic
  abiVersion := miraBinAbiVersion
  type := miraBinTypeMex
  headerSize := headerSize
  imageFlags := 0
  entryPoint := 0x400000
  loadBase := 0x400000
  sectCount := 0
  sectTableOff := 64
  nameTableOff := 64
  checksum := 0

/-- A container of that header and one byte more. -/
def bareContainer (headerSize : Nat) : List UInt8 := headerBytes (bareHeader headerSize) ++ [0]

/-- The container with the right size in its header passes the checks of its fields. -/
theorem bareContainer_checks : HeaderChecks (bareContainer 64) miraBinTypeMex := by
  have header : headerOf (bareContainer 64) = bareHeader 64 := rfl
  have length : (bareContainer 64).length = 65 := rfl
  refine ⟨?_, ?_, ?_, ?_, ?_, ?_, ?_, ?_, ?_⟩ <;> simp [header, length, bareHeader, miraHeaderBytes, add64]

/-- The container with a larger size in its header passes them as well. -/
theorem longContainer_checks : HeaderChecks (bareContainer 65) miraBinTypeMex := by
  have header : headerOf (bareContainer 65) = bareHeader 65 := rfl
  have length : (bareContainer 65).length = 65 := rfl
  refine ⟨?_, ?_, ?_, ?_, ?_, ?_, ?_, ?_, ?_⟩ <;> simp [header, length, bareHeader, miraHeaderBytes, add64]

/-- A container that differs from a valid one in exactly one byte is rejected, wherever the byte is. -/
theorem single_byte_change_rejected {file other : List UInt8} {expectedType i : Nat}
    (accepted : miraBinIsValid file expectedType = .ok true) (differs : DiffersAt file other i) :
    miraBinIsValid other expectedType = .ok false := by
  -- If the other one were valid as well, both checksums would be right.
  apply isValid_false
  intro both
  obtain ⟨checks, -, right⟩ := isValid_iff.mp accepted
  obtain ⟨-, -, otherRight⟩ := isValid_iff.mp both
  -- The byte is one of the checksum, or one that the checksum is made of.
  by_cases inside : 56 ≤ i ∧ i < 64
  · obtain ⟨same, differ⟩ := differs_in_checksum differs checks.size inside.1 inside.2
    exact differ (otherRight.trans (same.trans right.symm))
  · obtain ⟨differ, same⟩ := differs_out_of_checksum differs checks.size (by omega)
    exact differ (otherRight.symm.trans (same.trans right))

/-- The last byte of the small container is set to another value. -/
theorem bareContainer_changed_rejected :
    miraBinIsValid ((signed (bareContainer 64)).set 64 1) miraBinTypeMex = .ok false := by
  -- A byte of the body is changed, which the checksum covers.
  obtain ⟨checks, size, right⟩ := signed_checksum bareContainer_checks
  have plain : (headerOf (signed (bareContainer 64))).headerSize ≤ miraHeaderBytes := by
    rw [size]
    exact Nat.le_refl 64
  have length : (signed (bareContainer 64)).length = 65 := setChecksum_length bareContainer_checks.size _
  have last : (signed (bareContainer 64))[64]? = some 0 := by
    rw [signed, setChecksum_getElem? bareContainer_checks.size, if_neg (by omega)]
    rfl
  refine single_byte_change_rejected (isValid_iff.mpr ⟨checks, plain, right⟩) (differsAt_set ?_ ?_)
  · rw [length]
    omega
  · rw [last]
    decide

/--
The check and the function that computes checksums agree.

A container is valid exactly when its last eight bytes of the header are its checksum without them.
So the one checksum that can be patched in is that number.
-/
theorem checksum_accepted_iff {file : List UInt8} {expectedType : Nat}
    (checks : HeaderChecks file expectedType)
    (plain : (headerOf file).headerSize ≤ miraHeaderBytes) :
    (miraBinIsValid file expectedType = .ok true ↔
      leValue (fieldOf file 56 8) = (miraChecksum64 (setChecksum file 0)).toNat) ∧
    ∀ value, value < 2 ^ 64 → (miraBinIsValid (setChecksum file value) expectedType = .ok true ↔
      value = (miraChecksum64 (setChecksum file 0)).toNat) := by
  refine ⟨?_, fun value word => ?_⟩
  · rw [isValid_iff]
    exact ⟨fun valid => valid.2.2, fun right => ⟨checks, plain, right⟩⟩
  · -- The other checks are those of the container before, so only the number decides.
    have header := headerOf_setChecksum checks.size value
    rw [isValid_iff, rightChecksum_setChecksum checks.size, header, Nat.mod_eq_of_lt word]
    exact ⟨fun valid => valid.2.2, fun right => ⟨headerChecks_setChecksum checks value, plain, right⟩⟩

/-- The small container is valid with its checksum patched in. -/
theorem bareContainer_signed_accepted :
    miraBinIsValid (signed (bareContainer 64)) miraBinTypeMex = .ok true :=
  ((checksum_accepted_iff bareContainer_checks (Nat.le_refl 64)).2 _ (UInt64.toNat_lt _)).mpr rfl

/-- The two checks answer the same, unless only the size of a longer header speaks against a container. -/
theorem validators_agree_iff (file : List UInt8) (expectedType : Nat) :
    miraBinIsValid file expectedType = MiraBinValidate.miraValidateHeader file expectedType ↔
      ¬ (HeaderChecks file expectedType ∧ miraHeaderBytes < (headerOf file).headerSize ∧
        (headerOf file).checksum = rightChecksum file) := by
  classical
  rw [isValid_eq, binValidate_eq, Except.ok.injEq, decide_eq_decide]
  constructor
  · rintro same ⟨checks, longer, right⟩
    have shorter := (same.mpr ⟨checks, right⟩).2.1
    omega
  · intro excluded
    constructor
    · rintro ⟨checks, -, right⟩
      exact ⟨checks, right⟩
    · rintro ⟨checks, right⟩
      refine ⟨checks, ?_, right⟩
      -- A longer header is the one thing that the second check does not look at.
      by_contra longer
      exact excluded ⟨checks, by omega, right⟩

/-- A container with a larger size in its header is accepted by one of the checks only. -/
theorem longContainer_disputed :
    miraBinIsValid (signed (bareContainer 65)) miraBinTypeMex = .ok false ∧
      MiraBinValidate.miraValidateHeader (signed (bareContainer 65)) miraBinTypeMex = .ok true := by
  obtain ⟨checks, size, right⟩ := signed_checksum longContainer_checks
  -- Only the first validator bounds the header size from above, and 65 is past its bound.
  refine ⟨isValid_false fun valid => ?_, binValidate_iff.mpr ⟨checks, right⟩⟩
  have plain := (isValid_iff.mp valid).2.1
  rw [size] at plain
  exact absurd plain (by decide)

end MiraOS

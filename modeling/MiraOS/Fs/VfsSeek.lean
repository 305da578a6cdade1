import MiraOS.Fs.Vfs
import MiraOS.Machine.FileStore
import MiraOS.Machine.Signed

/-! Seeks of fs/vfs.c by a signed displacement from the start, the current place or the end. -/

namespace MiraOS

open Machine

/-- What a seek is meant to do: move inside the file, or refuse and leave everything. -/
def signedSeek (fd : Int) (file : OpenFile) (displacement whence : Int) (vfs : Vfs) : Int × Vfs :=
  let size := (vfs.nodes file.node).size
  match FileStore.seekBase file.offset size whence with
  | none => (-1, vfs)
  | some base =>
    if 0 ≤ (base : Int) + displacement ∧ (base : Int) + displacement ≤ size then
      (0, vfs.withFile fd.toNat { file with offset := ((base : Int) + displacement).toNat })
    else (-1, vfs)

/-- A base inside the file and a wrapped sum decide a seek as the exact sum does. -/
theorem seek_wrapped {fd : Int} {file : OpenFile} {vfs : Vfs} {base size : Nat} {displacement : Int}
    (inside : base ≤ size) (small : size < 2 ^ 63) (fits : Signed64 displacement) :
    (if size < add64 base (wordOf displacement) then (-1, vfs)
      else (0, vfs.withFile fd.toNat { file with offset := add64 base (wordOf displacement) })) =
    if 0 ≤ (base : Int) + displacement ∧ (base : Int) + displacement ≤ size then
      (0, vfs.withFile fd.toNat { file with offset := ((base : Int) + displacement).toNat })
    else ((-1 : Int), vfs) := by
  -- The wrapped sum stays inside the file exactly when the exact sum does.
  have decides := add64_wordOf_le inside small fits
  by_cases range : 0 ≤ (base : Int) + displacement ∧ (base : Int) + displacement ≤ size
  · -- Inside, the wrapped sum is the exact one.
    have kept := decides.mpr range
    rw [if_neg (by omega), if_pos range, add64_wordOf_eq inside small fits range]
  · have past : size < add64 base (wordOf displacement) := by
      apply Nat.lt_of_not_le
      intro kept
      exact range (decides.mp kept)
    rw [if_pos past, if_neg range]

/--
A seek by a signed displacement moves to the exact place when that is inside the file.

Any other displacement, and any other way to count, is refused and changes nothing.
-/
theorem vfsLseek_signed {vfs : Vfs} {fd : Int} {file : OpenFile} (opened : vfs.file? fd = some file)
    (inside : file.offset ≤ (vfs.nodes file.node).size) (small : (vfs.nodes file.node).size < 2 ^ 63)
    {displacement : Int} (fits : Signed64 displacement) (whence : Int) :
    vfsLseek fd (wordOf displacement) whence vfs = signedSeek fd file displacement whence vfs := by
  unfold vfsLseek signedSeek seekTarget FileStore.seekBase
  rw [opened]
  -- Each way to count has a base of its own, and any other is refused.
  by_cases start : whence = 0
  · -- The word itself is the sum with the start, since it is below the width.
    have word : wordOf displacement = add64 0 (wordOf displacement) := by
      unfold add64 wordOf
      omega
    simp only [start, if_true]
    conv_lhs => rw [word]
    exact seek_wrapped (Nat.zero_le _) small fits
  by_cases current : whence = 1
  · simp only [current]
    exact seek_wrapped inside small fits
  by_cases last : whence = 2
  · simp only [last]
    exact seek_wrapped (Nat.le_refl _) small fits
  · simp only [start, current, last, if_false]

/-- A file of ten bytes that is open at its fourth byte. -/
def tenByteVfs : Vfs where
  rootNode := 8
  openTable := fun _ => { node := 16, offset := 4, used := true }
  nodes := fun _ => { type := .file, size := 10 }
  blocks := fun _ => List.replicate 10 0
  freed := []
  linked := [16, 8]

/-- Three bytes back from the fourth is the first. -/
theorem vfsLseek_three_back :
    tenByteVfs.file? 0 = some { node := 16, offset := 4, used := true } ∧ wordOf (-3) = 2 ^ 64 - 3 ∧
      (vfsLseek 0 (wordOf (-3)) 1 tenByteVfs).1 = 0 ∧
      ((vfsLseek 0 (wordOf (-3)) 1 tenByteVfs).2.openTable 0).offset = 1 := by
  -- Three back from four is one, whatever the word for minus three is.
  have opened : tenByteVfs.file? 0 = some { node := 16, offset := 4, used := true } := by decide
  have moved := vfsLseek_signed opened (by decide) (by decide)
    (show Signed64 (-3) by unfold Signed64; omega) 1
  refine ⟨opened, by decide, ?_, ?_⟩
  · rw [moved]
    rfl
  · rw [moved]
    rfl

end MiraOS

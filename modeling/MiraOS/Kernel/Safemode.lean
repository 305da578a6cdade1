import MiraOS.Fs.VfsBounds
import MiraOS.Machine.TextArrays
import MiraOS.Ui.NumberBuffers

/-! The diagnostics log of kernel/safemode.c, in arrays that no store may leave. -/

namespace MiraOS

open Machine

/-- The lines of the log, and the length of a line. -/
def smMaxLines : Nat := 64
def smLineLen : Nat := 256

/-- The colors of the log. -/
def smTextFg : UInt32 := 0xCCCCCC
def smDimFg : UInt32 := 0x666666
def smGreenFg : UInt32 := 0x44FF88
def smHeaderFg : UInt32 := 0xFF4444

/-- The loop that copies a text while there is room, and ends it. -/
def smCopyLoop (src : List UInt8) (place : Nat) : Nat → Nat → List UInt8 → Except Halt (List UInt8)
  | 0, i, dst => do
    let _ ← loadByte src i
    storeByte dst (place + i) 0
  | room + 1, i, dst => do
    let c ← loadByte src i
    if c = 0 then storeByte dst (place + i) 0
    else do
      let dst ← storeByte dst (place + i) c
      smCopyLoop src place room (i + 1) dst

/-- Copy a text. -/
def smStrCopy (dst src : List UInt8) (max : Nat) : Except Halt (List UInt8) := smCopyLoop src 0 (max - 1) 0 dst

/-- The loop that looks for the end of a text. -/
def smStrLen : List UInt8 → Except Halt Nat
  | [] => .error .outOfBounds
  | c :: rest => if c = 0 then .ok 0 else return (← smStrLen rest) + 1

/-- Copy a text behind another one. -/
def smStrCat (dst src : List UInt8) (max : Nat) : Except Halt (List UInt8) := do
  let dlen ← smStrLen dst
  smCopyLoop src dlen (max - 1 - dlen) 0 dst

/-- The log: its lines, their colors, and how many there are. -/
structure SmLog where
  lines : List (List UInt8)
  colors : List UInt32
  count : Nat

/-- Add a line to the log, while there is room. -/
def smPrint (log : SmLog) (msg : List UInt8) (color : UInt32) : Except Halt SmLog :=
  if smMaxLines ≤ log.count then .ok log
  else
    match log.lines[log.count]? with
    | none => .error .outOfBounds
    | some line => do
      let line ← smStrCopy line msg smLineLen
      return ⟨log.lines.set log.count line, log.colors.set log.count color, log.count + 1⟩

/-- A text literal, with the zero behind it. -/
def smLiteral (text : String) : List UInt8 := asciiBytes text ++ [0]

/-- Write a number into an array. -/
def smNumber (array : List UInt8) (v : UInt64) : Except Halt (List UInt8) := do
  let text ← smUintToStr v
  storeLoop (fun i => loadByte (text ++ [0]) i) 0 (text.length + 1) 0 array

section

-- What local arrays hold at first.
variable (stack : Nat → UInt8)

/-- A local array of a size. -/
def smArray (size : Nat) : List UInt8 := (List.range size).map stack

/-- The line of the display, unless there is none. -/
def smDisplayLine (log : SmLog) (display : Option (UInt32 × UInt32)) (buf : List UInt8) : Except Halt SmLog :=
  match display with
  | some (width, height) => do
    let buf ← smStrCopy buf (smLiteral "  Display: ") 128
    let wbuf ← smNumber (smArray stack 12) width.toUInt64
    let hbuf ← smNumber (smArray stack 12) height.toUInt64
    let buf ← smStrCat buf wbuf 128
    let buf ← smStrCat buf (smLiteral "x") 128
    let buf ← smStrCat buf hbuf 128
    let buf ← smStrCat buf (smLiteral " 32bpp") 128
    smPrint log buf smTextFg
  | none => smPrint log (smLiteral "  Display: not available") smHeaderFg

/-- A slash goes behind the name of a directory. -/
def smSlash (node : VfsNode) (line : List UInt8) : Except Halt (List UInt8) :=
  if node.type = .directory then smStrCat line (smLiteral "/") smLineLen else .ok line

/-- The loop over the files of a directory. -/
def smFileLoop (vfs : Vfs) : Nat → Nat → SmLog → Except Halt SmLog
  | 0, child, log => if child = 0 then .ok log else .error .outOfFuel
  | fuel + 1, child, log =>
    if child = 0 then .ok log
    else do
      let node := vfs.nodes child
      let line ← smStrCopy (smArray stack smLineLen) (smLiteral "    ") smLineLen
      let line ← smStrCat line (node.name ++ [0]) smLineLen
      let line ← smSlash node line
      let log ← smPrint log line smTextFg
      smFileLoop vfs fuel node.nextSibling log

/-- The line of a directory without files. -/
def smNoFiles (child : Nat) (log : SmLog) : Except Halt SmLog :=
  if child = 0 then smPrint log (smLiteral "    (empty)") smDimFg else .ok log

/-- The lines of the files, if anything is mounted. -/
def smFileLines (fuel : Nat) (log : SmLog) (vfs : Vfs) : Except Halt SmLog :=
  if vfs.rootNode = 0 then .ok log
  else do
    let log ← smPrint log (smLiteral "") smTextFg
    let log ← smPrint log (smLiteral "  Files in /:") smGreenFg
    let child := (vfs.nodes vfs.rootNode).children
    let log ← smNoFiles child log
    smFileLoop stack vfs fuel child log

/-- Fill the log. -/
def smCollectDiagnostics (fuel : Nat) (log : SmLog) (ticks : UInt64) (display : Option (UInt32 × UInt32))
    (reason : List UInt8) (vfs : Vfs) : Except Halt SmLog := do
  let log ← smPrint log (smLiteral "  System diagnostics") smGreenFg
  let buf ← smStrCopy (smArray stack 128) (smLiteral "  Uptime : ") 128
  let tmp ← smNumber (smArray stack 24) (ticks / 100)
  let buf ← smStrCat buf tmp 128
  let buf ← smStrCat buf (smLiteral " seconds") 128
  let log ← smPrint log buf smTextFg
  let log ← smDisplayLine stack log display buf
  let buf ← smStrCopy buf (smLiteral "  Reason : ") 128
  let buf ← smStrCat buf reason 128
  let log ← smPrint log buf smHeaderFg
  smFileLines stack fuel log vfs

/-- The reason that is kept, or a word for none. -/
def smReasonText (reason : Option (List UInt8)) : Except Halt (List UInt8) :=
  match reason with
  | none => .ok (smLiteral "unknown")
  | some text => do
    let c ← loadByte (text ++ [0]) 0
    return if c = 0 then smLiteral "unknown" else text ++ [0]

/-- The static arrays of safe mode. -/
structure SmStatics where
  lines : List (List UInt8)
  colors : List UInt32
  reason : List UInt8
  lineCount : lines.length = smMaxLines ∧ colors.length = smMaxLines
  lineSize : ∀ line ∈ lines, line.length = smLineLen
  reasonSize : reason.length = 128

/-- What safe mode does before its loop: it keeps the reason, empties the log and fills it. -/
def safemodeLog (fuel : Nat) (statics : SmStatics) (reason : Option (List UInt8)) (ticks : UInt64)
    (display : Option (UInt32 × UInt32)) (vfs : Vfs) : Except Halt SmLog := do
  let text ← smReasonText reason
  let kept ← smStrCopy statics.reason text 128
  smCollectDiagnostics stack fuel ⟨statics.lines, statics.colors, 0⟩ ticks display kept vfs

end

/-- An array of a size holds as much of a text as it has room for. -/
structure CutTo (size : Nat) (array text : List UInt8) : Prop where
  sized : array.length = size
  holds : TextIn array (text.take (size - 1))

section

variable {array src dst text front : List UInt8} {size place : Nat}

/-- A store of one byte, as an overlay. -/
theorem storeByte_overlay (inside : place < dst.length) (c : UInt8) :
    storeByte dst place c = .ok (overlay dst place [c]) := by
  rw [storeByte, if_pos inside, ← overlay_cons inside, overlay_nil]

/-- The loop copies as much of the rest of a text as there is room for. -/
theorem smCopyLoop_ok (holds : TextIn src text) {room i : Nat} (inside : i ≤ text.length)
    (fits : place + i + min room (text.length - i) < dst.length) :
    smCopyLoop src place room i dst = .ok (overlay dst (place + i) ((text.drop i).take room ++ [0])) := by
  have loaded : loadByte src i = .ok (text.getD i 0) := by rw [loadByte, holds.getElem? inside]
  induction room generalizing i dst with
  | zero =>
    rw [smCopyLoop, loaded, ok_bind, storeByte_overlay (by omega)]
    rfl
  | succ room ih =>
    rw [smCopyLoop, loaded, ok_bind]
    rcases Nat.lt_or_eq_of_le inside with less | rfl
    · -- A character of the text is stored, and the loop goes on behind it.
      have here : text.getD i 0 = text[i] := by simp [less]
      have real : text[i] ≠ 0 := fun zero => holds.solid (zero ▸ List.getElem_mem less)
      rw [here, if_neg real, storeByte, if_pos (by omega), ok_bind]
      rw [ih less (by rw [List.length_set]; omega) (by rw [loadByte, holds.getElem? less])]
      rw [show place + (i + 1) = place + i + 1 by omega, overlay_cons (by omega), List.drop_eq_getElem_cons less]
      rfl
    · have ended : text.getD text.length 0 = 0 := by simp
      rw [ended, if_pos rfl, storeByte_overlay (by omega), List.drop_length, List.take_nil]
      rfl

/-- The end of a text is found. -/
theorem smStrLen_ok (holds : TextIn array text) : smStrLen array = .ok text.length := by
  -- Induction on the text, up to the zero that ends it.
  obtain ⟨rest, rfl⟩ := holds.stored
  have solid := holds.solid
  clear holds
  induction text with
  | nil => rfl
  | cons c s ih =>
    have real : c ≠ 0 := fun zero => solid (zero ▸ List.mem_cons_self)
    rw [List.cons_append, smStrLen, if_neg real, ih fun among => solid (List.mem_cons_of_mem c among)]
    rfl

/-- Overlays inside an array keep its size. -/
theorem overlay_size {bytes : List UInt8} (inside : place + bytes.length ≤ dst.length) :
    (overlay dst place bytes).length = dst.length := by
  rw [overlay_length (by omega)]
  omega

/-- Copying a text fills an array as far as it goes. -/
theorem smStrCopy_ok (holds : TextIn src text) (sized : dst.length = size) (some : 0 < size) :
    ∃ after, smStrCopy dst src size = .ok after ∧ CutTo size after text := by
  -- As much of the text is copied as has room in front of the zero.
  have bound : (text.take (size - 1)).length = min (size - 1) text.length := List.length_take
  refine ⟨_, smCopyLoop_ok holds (Nat.zero_le _) (by omega), ?_, ?_⟩
  · rw [overlay_size (by rw [List.length_append, List.drop_zero, List.length_singleton]; omega), sized]
  · have whole := @TextIn.overlay dst (text.take (size - 1)) [] List.not_mem_nil rfl fun among =>
      holds.solid (List.mem_of_mem_take among)
    rwa [List.nil_append] at whole

/-- A text behind another one fills the array as far as it goes. -/
theorem smStrCat_ok (holds : TextIn src text) (before : CutTo size dst front) (some : 0 < size) :
    ∃ after, smStrCat dst src size = .ok after ∧ CutTo size after (front ++ text) := by
  -- What is there already is counted first, and the rest of the room is for the text.
  have bound : (front.take (size - 1)).length = min (size - 1) front.length := List.length_take
  have sized := before.sized
  generalize length : (front.take (size - 1)).length = dlen at bound
  have room : (text.take (size - 1 - dlen)).length = min (size - 1 - dlen) text.length := List.length_take
  have copied := @smCopyLoop_ok src dst text dlen holds (size - 1 - dlen) 0 (Nat.zero_le _) (by omega)
  refine ⟨overlay dst dlen (text.take (size - 1 - dlen) ++ [0]), ?_, ?_, ?_⟩
  · rw [smStrCat, smStrLen_ok before.holds, ok_bind, length]
    exact copied
  · rw [overlay_size (by rw [List.length_append, List.length_singleton]; omega), sized]
  · -- Behind the front the copied part is followed by its own zero.
    have whole := @TextIn.overlay dst (text.take (size - 1 - dlen)) _ before.holds.solid before.holds.begins
      fun among => holds.solid (List.mem_of_mem_take among)
    rw [length] at whole
    rw [List.take_append, show size - 1 - front.length = size - 1 - dlen by omega]
    exact whole

/-- A line of the log: what it says, and its color. -/
abbrev SmEntry := List UInt8 × UInt32

/-- The log shows some entries, as many as it has lines for. -/
structure SmLog.Shows (log : SmLog) (entries : List SmEntry) : Prop where
  count : log.count = min smMaxLines entries.length
  sized : log.lines.length = smMaxLines ∧ log.colors.length = smMaxLines
  long : ∀ line ∈ log.lines, line.length = smLineLen
  shown : ∀ i entry, i < smMaxLines → entries[i]? = some entry →
    (∃ line, log.lines[i]? = some line ∧ TextIn line entry.1) ∧ log.colors[i]? = some entry.2

/-- A line more is shown, cut to the length of a line, while there is room. -/
theorem SmLog.Shows.print {log : SmLog} {entries : List SmEntry} (shows : log.Shows entries) {msg : List UInt8}
    (holds : TextIn msg text) (color : UInt32) :
    ∃ after, smPrint log msg color = .ok after ∧ after.Shows (entries ++ [(text.take 255, color)]) := by
  have count := shows.count
  obtain ⟨rows, colors⟩ := shows.sized
  by_cases full : smMaxLines ≤ log.count
  · -- A full log stays as it is, and shows nothing of the new entry.
    refine ⟨log, if_pos full, ?_, shows.sized, shows.long, fun i entry inside found => ?_⟩
    · rw [List.length_append]
      omega
    · rw [List.getElem?_append_left (by omega)] at found
      exact shows.shown i entry inside found
  -- With room the entry is copied to the line of the count.
  have few : entries.length < smMaxLines := by omega
  have here : log.count < log.lines.length := by omega
  have sized := shows.long log.lines[log.count] (List.getElem_mem here)
  obtain ⟨line, copied, cut⟩ := smStrCopy_ok holds sized (by decide)
  refine ⟨⟨log.lines.set log.count line, log.colors.set log.count color, log.count + 1⟩, ?_, ?_, ?_, ?_, ?_⟩
  · rw [smPrint, if_neg full, List.getElem?_eq_getElem here]
    dsimp only
    rw [copied]
    rfl
  · rw [List.length_append, List.length_singleton]
    show log.count + 1 = _
    omega
  · exact ⟨by rw [List.length_set, rows], by rw [List.length_set, colors]⟩
  · intro other among
    rcases List.mem_or_eq_of_mem_set among with before | rfl
    · exact shows.long other before
    · exact cut.sized
  · intro i entry inside found
    have place : log.count = entries.length := by omega
    show (∃ row, (log.lines.set log.count line)[i]? = some row ∧ TextIn row entry.1) ∧
      (log.colors.set log.count color)[i]? = some entry.2
    -- The earlier lines stay, and the line of the count shows the new entry.
    rcases Nat.lt_or_ge i entries.length with before | behind
    · rw [List.getElem?_append_left before] at found
      rw [List.getElem?_set_ne (by omega), List.getElem?_set_ne (by omega)]
      exact shows.shown i entry inside found
    · obtain rfl : i = entries.length := by
        have bound := (List.getElem?_eq_some_iff.mp found).1
        rw [List.length_append, List.length_singleton] at bound
        omega
      rw [List.getElem?_concat_length] at found
      obtain rfl := Option.some.inj found
      rw [place, List.getElem?_set_self (by omega), List.getElem?_set_self (by omega)]
      exact ⟨⟨line, rfl, cut.holds⟩, rfl⟩

/-- A number that an array has room for is written into it. -/
theorem smNumber_ok {v : UInt64} {digits : Nat} (small : v.toNat < 10 ^ digits) (some : 0 < digits)
    (room : digits < array.length) : ∃ after, smNumber array v = .ok after ∧
      TextIn after (decimalDigits v.toNat) ∧ (decimalDigits v.toNat).length ≤ digits := by
  have short : (decimalDigits v.toNat).length ≤ digits := by
    by_cases zero : v.toNat = 0
    · rw [decimalDigits, if_pos zero]
      exact some
    · rw [← lowDigits_reverse zero, List.length_reverse]
      exact lowDigits_length_le small
  have solid : 0 ∉ decimalDigits v.toNat := fun among => absurd (decimalDigits_isDigit v.toNat 0 among) (by decide)
  have text : smUintToStr v = .ok (decimalDigits v.toNat) := uintToText_eq (Nat.lt_trans v.toNat_lt (by decide))
  generalize decimalDigits v.toNat = written at short solid text
  -- The characters and the zero behind them are laid over the front of the array.
  have stored := @storeLoop_fits array 0 0 (written.length + 1) (fun i => loadByte (written ++ [0]) i)
    (fun i => (written ++ [0]).getD i 0) (by omega) fun j _ inside => by
      rw [loadByte_inside (by rw [List.length_append, List.length_singleton]; omega)]
      simp [show j < written.length + 1 by omega]
  have bytes : (List.range' 0 (written.length + 1)).map (fun i => (written ++ [0]).getD i 0) = written ++ [0] := by
    have whole := map_getD_range (written ++ [0])
    rwa [List.length_append, List.length_singleton, List.range_eq_range'] at whole
  rw [bytes] at stored
  refine ⟨_, by rw [smNumber, text, ok_bind]; exact stored, ?_, short⟩
  have holds := @TextIn.overlay array written [] List.not_mem_nil rfl solid
  rwa [List.nil_append] at holds

/-- What the line of the display says. -/
def displayEntry : Option (UInt32 × UInt32) → SmEntry
  | some (width, height) =>
    (asciiBytes "  Display: " ++ decimalDigits width.toNat ++ asciiBytes "x" ++ decimalDigits height.toNat ++
      asciiBytes " 32bpp", smTextFg)
  | none => (asciiBytes "  Display: not available", smHeaderFg)

/-- What the line of a file says: its name, and a slash behind that of a directory. -/
def fileEntry (node : VfsNode) : SmEntry :=
  ((asciiBytes "    " ++ node.name.takeWhile (· ≠ 0) ++ if node.type = .directory then asciiBytes "/" else []).take 255,
    smTextFg)

/-- The lines of the files of a directory. -/
def fileEntries (files : List VfsNode) : List SmEntry :=
  [([], smTextFg), (asciiBytes "  Files in /:", smGreenFg)] ++
    if files = [] then [(asciiBytes "    (empty)", smDimFg)] else files.map fileEntry

/-- The word that stands for the reason. -/
def reasonWord (reason : Option (List UInt8)) : List UInt8 :=
  match reason.map fun text => text.takeWhile (· ≠ 0) with
  | some (c :: rest) => c :: rest
  | _ => asciiBytes "unknown"

/-- What the log says. -/
def diagnosticEntries (ticks : UInt64) (display : Option (UInt32 × UInt32)) (reason : Option (List UInt8))
    (files : List VfsNode) : List SmEntry :=
  [(asciiBytes "  System diagnostics", smGreenFg),
    (asciiBytes "  Uptime : " ++ decimalDigits (ticks / 100).toNat ++ asciiBytes " seconds", smTextFg),
    displayEntry display,
    ((asciiBytes "  Reason : " ++ (reasonWord reason).take 127).take 127, smHeaderFg)] ++ fileEntries files

variable {log : SmLog} {entries : List SmEntry}

/-- A literal is a text. -/
theorem smLiteral_holds {literal : String} (solid : 0 ∉ asciiBytes literal) :
    TextIn (smLiteral literal) (asciiBytes literal) := textIn_solid solid

/-- A short literal is shown as it is. -/
theorem SmLog.Shows.literal (shows : log.Shows entries) {literal : String} (solid : 0 ∉ asciiBytes literal)
    (short : (asciiBytes literal).length ≤ 255) (color : UInt32) :
    ∃ after, smPrint log (smLiteral literal) color = .ok after ∧
      after.Shows (entries ++ [(asciiBytes literal, color)]) := by
  have shown := shows.print (smLiteral_holds solid) color
  rwa [List.take_of_length_le short] at shown

/-- A text in a buffer is shown as far as the buffer has room for it. -/
theorem SmLog.Shows.cut (shows : log.Shows entries) (cut : CutTo 128 array text) (color : UInt32) :
    ∃ after, smPrint log array color = .ok after ∧ after.Shows (entries ++ [(text.take 127, color)]) := by
  have shown := shows.print cut.holds color
  rwa [List.take_take] at shown

/-- A local array has its size. -/
theorem smArray_length (stack : Nat → UInt8) (size : Nat) : (smArray stack size).length = size := by
  rw [smArray, List.length_map, List.length_range]

/-- The line of the display is shown. -/
theorem smDisplayLine_ok (stack : Nat → UInt8) (shows : log.Shows entries) (display : Option (UInt32 × UInt32))
    (sized : array.length = 128) :
    ∃ after, smDisplayLine stack log display array = .ok after ∧ after.Shows (entries ++ [displayEntry display]) := by
  cases display with
  | none => exact shows.literal (by decide) (by decide) smHeaderFg
  | some size =>
    obtain ⟨width, height⟩ := size
    have wide : ∀ v : UInt32, v.toUInt64.toNat < 10 ^ 10 := fun v => by
      have small := v.toNat_lt
      rw [UInt32.toNat_toUInt64]
      omega
    -- The five parts are put together one after the other, each into what the array has left.
    obtain ⟨first, copied, cut⟩ := smStrCopy_ok (smLiteral_holds (by decide : 0 ∉ asciiBytes "  Display: ")) sized
      (by decide)
    obtain ⟨wbuf, wrote, wide₁, few₁⟩ := @smNumber_ok (smArray stack 12) _ 10 (wide width) (by decide)
      (by rw [smArray_length]; decide)
    obtain ⟨hbuf, drew, wide₂, few₂⟩ := @smNumber_ok (smArray stack 12) _ 10 (wide height) (by decide)
      (by rw [smArray_length]; decide)
    obtain ⟨second, joined, cut⟩ := smStrCat_ok wide₁ cut (by decide)
    obtain ⟨third, crossed, cut⟩ := smStrCat_ok (smLiteral_holds (by decide : 0 ∉ asciiBytes "x")) cut (by decide)
    obtain ⟨fourth, followed, cut⟩ := smStrCat_ok wide₂ cut (by decide)
    obtain ⟨last, ended, cut⟩ := smStrCat_ok (smLiteral_holds (by decide : 0 ∉ asciiBytes " 32bpp")) cut (by decide)
    obtain ⟨after, printed, shown⟩ := shows.cut cut smTextFg
    rw [UInt32.toNat_toUInt64] at few₁ few₂ shown
    rw [UInt32.toNat_toUInt64] at shown
    refine ⟨after, ?_, ?_⟩
    · rw [smDisplayLine, copied, ok_bind, wrote, ok_bind, drew, ok_bind, joined, ok_bind, crossed, ok_bind, followed,
        ok_bind, ended, ok_bind]
      exact printed
    · -- The whole line is short.
      rw [List.take_of_length_le] at shown
      · exact shown
      · have lengths : (asciiBytes "  Display: ").length = 11 ∧ (asciiBytes "x").length = 1 ∧
            (asciiBytes " 32bpp").length = 6 := by decide
        simp only [List.length_append]
        omega

/-- Each file of a directory is shown, in order. -/
theorem smFileLoop_ok (stack : Nat → UInt8) (shows : log.Shows entries) {vfs : Vfs} {child : Nat} {kids : List Nat}
    (siblings : Siblings vfs child kids) :
    ∃ after, (∀ fuel, kids.length ≤ fuel → smFileLoop stack vfs fuel child log = .ok after) ∧
      after.Shows (entries ++ kids.map fun kid => fileEntry (vfs.nodes kid)) := by
  induction kids generalizing log entries child with
  | nil =>
    obtain rfl : child = 0 := siblings
    refine ⟨log, fun fuel _ => ?_, by rwa [List.map_nil, List.append_nil]⟩
    cases fuel <;> exact if_pos rfl
  | cons kid rest ih =>
    obtain ⟨rfl, real, behind⟩ := siblings
    have sized := smArray_length stack smLineLen
    obtain ⟨first, copied, cut⟩ := smStrCopy_ok (smLiteral_holds (by decide : 0 ∉ asciiBytes "    ")) sized (by decide)
    obtain ⟨second, named, cut⟩ := smStrCat_ok (textIn_literal (vfs.nodes child).name) cut (by decide)
    -- A directory has a slash behind its name.
    obtain ⟨third, slashed, cut⟩ : ∃ line, smSlash (vfs.nodes child) second = .ok line ∧
        CutTo smLineLen line (asciiBytes "    " ++ (vfs.nodes child).name.takeWhile (· ≠ 0) ++
          if (vfs.nodes child).type = .directory then asciiBytes "/" else []) := by
      rw [smSlash]
      split_ifs
      · exact smStrCat_ok (smLiteral_holds (by decide)) cut (by decide)
      · exact ⟨second, rfl, by rwa [List.append_nil]⟩
    obtain ⟨shown, printed, more⟩ := shows.print cut.holds smTextFg
    rw [List.take_take] at more
    obtain ⟨after, looped, all⟩ := ih more behind
    refine ⟨after, fun fuel enough => ?_, ?_⟩
    · obtain ⟨less, rfl⟩ : ∃ less, fuel = less + 1 := ⟨fuel - 1, by rw [List.length_cons] at enough; omega⟩
      rw [smFileLoop, if_neg real]
      dsimp only
      rw [copied, ok_bind, named, ok_bind, slashed, ok_bind, printed, ok_bind]
      exact looped less (Nat.le_of_succ_le_succ enough)
    · rw [List.map_cons]
      rw [List.append_assoc, List.singleton_append] at all
      exact all

/-- The files of the root are shown. -/
theorem smFileLines_ok (stack : Nat → UInt8) (shows : log.Shows entries) {vfs : Vfs} (mounted : vfs.rootNode ≠ 0)
    {kids : List Nat} (siblings : Siblings vfs (vfs.nodes vfs.rootNode).children kids) :
    ∃ after, (∀ fuel, kids.length ≤ fuel → smFileLines stack fuel log vfs = .ok after) ∧
      after.Shows (entries ++ fileEntries (kids.map vfs.nodes)) := by
  -- Two lines come first, then one line for no files or one for each.
  obtain ⟨first, blank, shown⟩ := @SmLog.Shows.literal _ _ shows "" (by decide) (by decide) smTextFg
  obtain ⟨second, titled, shown⟩ := @SmLog.Shows.literal _ _ shown "  Files in /:" (by decide) (by decide) smGreenFg
  obtain ⟨third, told, shown⟩ : ∃ after, smNoFiles (vfs.nodes vfs.rootNode).children second = .ok after ∧
      after.Shows (entries ++ [([], smTextFg)] ++ [(asciiBytes "  Files in /:", smGreenFg)] ++
        if kids = [] then [(asciiBytes "    (empty)", smDimFg)] else []) := by
    rw [smNoFiles]
    cases kids with
    -- A directory without files has null as its first child.
    | nil =>
      rw [if_pos (show (vfs.nodes vfs.rootNode).children = 0 from siblings)]
      exact shown.literal (by decide) (by decide) smDimFg
    | cons kid rest =>
      rw [if_neg (by rw [siblings.1]; exact siblings.2.1)]
      exact ⟨second, rfl, by rw [if_neg (List.cons_ne_nil _ _), List.append_nil]; exact shown⟩
  obtain ⟨after, looped, shown⟩ := smFileLoop_ok stack shown siblings
  refine ⟨after, fun fuel enough => ?_, ?_⟩
  · rw [smFileLines, if_neg mounted, blank, ok_bind, titled, ok_bind]
    dsimp only
    rw [told, ok_bind]
    exact looped fuel enough
  · -- The lines are those of the title and of the files, in order.
    have same : entries ++ fileEntries (kids.map vfs.nodes) =
        entries ++ [([], smTextFg)] ++ [(asciiBytes "  Files in /:", smGreenFg)] ++
          (if kids = [] then [(asciiBytes "    (empty)", smDimFg)] else []) ++
          kids.map fun kid => fileEntry (vfs.nodes kid) := by
      rw [fileEntries]
      cases kids <;> simp
    rw [same]
    exact shown

/-- The log is filled. -/
theorem smCollectDiagnostics_ok (stack : Nat → UInt8) (shows : log.Shows []) (ticks : UInt64)
    (display : Option (UInt32 × UInt32)) {reason : Option (List UInt8)} (kept : CutTo 128 src (reasonWord reason))
    {vfs : Vfs} (mounted : vfs.rootNode ≠ 0) {kids : List Nat}
    (siblings : Siblings vfs (vfs.nodes vfs.rootNode).children kids) :
    ∃ after, (∀ fuel, kids.length ≤ fuel →
        smCollectDiagnostics stack fuel log ticks display src vfs = .ok after) ∧
      after.Shows (diagnosticEntries ticks display reason (kids.map vfs.nodes)) := by
  obtain ⟨_, title, shown⟩ :=
    @SmLog.Shows.literal _ _ shows "  System diagnostics" (by decide) (by decide) smGreenFg
  obtain ⟨_, copied, cut⟩ := smStrCopy_ok (smLiteral_holds (by decide : 0 ∉ asciiBytes "  Uptime : "))
    (smArray_length stack 128) (by decide)
  obtain ⟨_, wrote, number, few⟩ := @smNumber_ok (smArray stack 24) (ticks / 100) 20
    (Nat.lt_trans (ticks / 100).toNat_lt (by decide)) (by decide) (by rw [smArray_length]; decide)
  obtain ⟨_, counted, cut⟩ := smStrCat_ok number cut (by decide)
  obtain ⟨uptime, ended, cut⟩ := smStrCat_ok (smLiteral_holds (by decide : 0 ∉ asciiBytes " seconds")) cut (by decide)
  obtain ⟨_, timed, shown⟩ := shown.cut cut smTextFg
  obtain ⟨_, displayed, shown⟩ := smDisplayLine_ok stack shown display cut.sized
  -- The line of the reason is written into the same buffer.
  obtain ⟨_, again, other⟩ := smStrCopy_ok (smLiteral_holds (by decide : 0 ∉ asciiBytes "  Reason : ")) cut.sized
    (by decide)
  obtain ⟨_, explained, other⟩ := smStrCat_ok kept.holds other (by decide)
  obtain ⟨_, told, shown⟩ := shown.cut other smHeaderFg
  obtain ⟨after, listed, shown⟩ := smFileLines_ok stack shown mounted siblings
  refine ⟨after, fun fuel enough => ?_, ?_⟩
  · rw [smCollectDiagnostics, title, ok_bind, copied, ok_bind, wrote, ok_bind, counted, ok_bind, ended, ok_bind, timed,
      ok_bind, displayed, ok_bind, again, ok_bind, explained, ok_bind, told, ok_bind]
    exact listed fuel enough
  · rw [List.take_of_length_le] at shown
    · exact shown
    · have lengths : (asciiBytes "  Uptime : ").length = 11 ∧ (asciiBytes " seconds").length = 8 := by decide
      simp only [List.length_append]
      omega

/-- The reason that is kept is the word for it, as far as there is room. -/
theorem smReasonText_ok (reason : Option (List UInt8)) :
    ∃ array, smReasonText reason = .ok array ∧ TextIn array (reasonWord reason) := by
  -- Without a reason, or with an empty one, the word is a fixed one.
  have unknown : TextIn (smLiteral "unknown") (asciiBytes "unknown") := smLiteral_holds (by decide)
  cases reason with
  | none => exact ⟨_, rfl, unknown⟩
  | some text =>
    cases text with
    | nil => exact ⟨_, rfl, unknown⟩
    | cons c rest =>
      have first : loadByte (c :: rest ++ [0]) 0 = .ok c := rfl
      rw [smReasonText, first, ok_bind]
      by_cases zero : c = 0
      · rw [if_pos zero, zero]
        exact ⟨_, rfl, by simpa [reasonWord] using unknown⟩
      · rw [if_neg zero]
        refine ⟨_, rfl, ?_⟩
        -- The text ends at its first zero.
        have whole := textIn_literal (c :: rest)
        have word : reasonWord (some (c :: rest)) = (c :: rest).takeWhile (· ≠ 0) := by
          simp [reasonWord, zero]
        rw [word]
        exact whole

end

/-- The static arrays, cleared. -/
def clearStatics : SmStatics where
  lines := List.replicate smMaxLines (List.replicate smLineLen 0)
  colors := List.replicate smMaxLines 0
  reason := List.replicate 128 0
  lineCount := ⟨List.length_replicate, List.length_replicate⟩
  lineSize line among := by rw [List.eq_of_mem_replicate among, List.length_replicate]
  reasonSize := List.length_replicate

end MiraOS

import Mathlib.Data.List.Induction
import MiraOS.Machine.Slots
import MiraOS.Machine.Text
import MiraOS.Machine.Window
import MiraOS.Ui.CommandLists

/-! The history of ui/shell.c: copies of the last commands, oldest first. -/

namespace MiraOS

open Machine

/-- Limit of the history. -/
def shellMaxHistory : Nat := 1024

/-- The static variables of the history, with the calls made to the allocator. -/
structure ShellHistory where
  -- Each entry is a string on the heap, kept by its address.
  globalHistory : Nat → HeapString
  globalHistoryCount : Nat
  globalHistoryIndex : Nat
  heap : HeapCalls

/-- A copy of a text on the heap, or nothing without memory. -/
def dsStrdup (supply : Nat → Nat) (text : List UInt8) (heap : HeapCalls) : HeapString × HeapCalls :=
  let (dup, heap) := heap.kmalloc supply
  if dup = 0 then (⟨0, []⟩, heap) else (⟨dup, text⟩, heap)

/-- Give back the oldest entry and move the others down. -/
def dropOldest (history : ShellHistory) : ShellHistory :=
  { history with
    heap := history.heap.kfree (history.globalHistory 0).address
    globalHistory := shiftDown history.globalHistory 0 (shellMaxHistory - 1)
    globalHistoryCount := history.globalHistoryCount - 1 }

/-- Add a command behind the others; a full history loses its oldest one. -/
def shellAddHistory (supply : Nat → Nat) (history : ShellHistory) (cmd : List UInt8) : ShellHistory :=
  let history := if shellMaxHistory ≤ history.globalHistoryCount then dropOldest history else history
  let (dup, heap) := dsStrdup supply cmd history.heap
  { globalHistory := Function.update history.globalHistory history.globalHistoryCount dup
    globalHistoryCount := history.globalHistoryCount + 1
    globalHistoryIndex := history.globalHistoryCount + 1
    heap := heap }

/-- The text of an entry, which is empty past the last one. -/
def shellGetHistory (history : ShellHistory) (index : Nat) : List UInt8 :=
  if index < history.globalHistoryCount then (history.globalHistory index).bytes else []

/-- The history before the first command, over whatever its slots hold. -/
def noHistory (globalHistory : Nat → HeapString) (heap : HeapCalls) : ShellHistory :=
  ⟨globalHistory, 0, 0, heap⟩

/-- The history after commands one after another. -/
def historyAfter (supply : Nat → Nat) (start : ShellHistory) (cmds : List (List UInt8)) : ShellHistory :=
  cmds.foldl (shellAddHistory supply) start

/-- The copies that the commands are kept as, in order, from a number of requests on. -/
def copiesFrom (supply : Nat → Nat) (requests : Nat) (cmds : List (List UInt8)) : List HeapString :=
  cmds.mapIdx fun i cmd => ⟨supply (requests + i), cmd⟩

/-- The history holds the last of these copies, and the others were given back in order. -/
structure ShellHistory.Keeps (history : ShellHistory) (start : HeapCalls) (copies : List HeapString) :
    Prop where
  entries : slots history.globalHistory history.globalHistoryCount = lastItems shellMaxHistory copies
  requests : history.heap.requests = start.requests + copies.length
  freed : history.heap.freed = start.freed ++ (leftItems shellMaxHistory copies).map (·.address)

/-- The history is as long as the list of what it keeps. -/
theorem ShellHistory.Keeps.count {history : ShellHistory} {start : HeapCalls} {copies : List HeapString}
    (keeps : history.Keeps start copies) : history.globalHistoryCount = min copies.length shellMaxHistory := by
  have length := congrArg List.length keeps.entries
  rwa [slots_length, lastItems_length] at length

/-- One command adds its copy, and a full history gives back the oldest one. -/
theorem ShellHistory.Keeps.add {history : ShellHistory} {start : HeapCalls} {copies : List HeapString}
    (keeps : history.Keeps start copies) {supply : Nat → Nat}
    (memory : supply (start.requests + copies.length) ≠ 0) (cmd : List UInt8) :
    (shellAddHistory supply history cmd).Keeps start
      (copies ++ [⟨supply (start.requests + copies.length), cmd⟩]) := by
  have count := keeps.count
  have requests := keeps.requests
  have asked : (copies ++ [(⟨supply (start.requests + copies.length), cmd⟩ : HeapString)]).length =
      copies.length + 1 := by simp
  by_cases full : shellMaxHistory ≤ copies.length
  · -- A full history drops its first entry, which is the one that leaves the window.
    obtain ⟨window, gone⟩ := window_full shellMaxHistory copies
      ⟨supply (start.requests + copies.length), cmd⟩ full (by decide)
    have size : history.globalHistoryCount = shellMaxHistory := by omega
    -- The first entry is the oldest copy of the window.
    have first : (lastItems shellMaxHistory copies).head? = some (history.globalHistory 0) := by
      rw [← keeps.entries, List.head?_eq_getElem?, slots_getElem?, if_pos (by rw [size]; decide)]
    -- The others move down by one place.
    have moved : slots (shiftDown history.globalHistory 0 (shellMaxHistory - 1)) (shellMaxHistory - 1) =
        (lastItems shellMaxHistory copies).tail := by
      have shifted := @slots_shiftDown _ history.globalHistory shellMaxHistory 0 (by decide)
      rw [← keeps.entries, size, ← List.eraseIdx_zero]
      exact shifted
    simp only [shellAddHistory, size, Nat.le_refl, if_true, dropOldest, dsStrdup, HeapCalls.kmalloc,
      HeapCalls.kfree, requests, if_neg memory]
    refine ⟨?_, ?_, ?_⟩
    · rw [window, slots_push, moved]
    · rw [asked]
      rfl
    · rw [gone, first, List.map_append, ← List.append_assoc, keeps.freed]
      rfl
  · -- With room the copy goes into the first free slot.
    obtain ⟨window, gone⟩ := window_room shellMaxHistory copies
      ⟨supply (start.requests + copies.length), cmd⟩ (by omega)
    have room : ¬ shellMaxHistory ≤ history.globalHistoryCount := by omega
    simp only [shellAddHistory, if_neg room, dsStrdup, HeapCalls.kmalloc, requests, if_neg memory]
    refine ⟨?_, ?_, ?_⟩
    · rw [window, slots_push, keeps.entries]
    · rw [asked]
      rfl
    · rw [gone]
      exact keeps.freed

/-- The copies of one command more. -/
theorem copiesFrom_snoc (supply : Nat → Nat) (requests : Nat) (cmds : List (List UInt8)) (cmd : List UInt8) :
    copiesFrom supply requests (cmds ++ [cmd]) =
      copiesFrom supply requests cmds ++ [⟨supply (requests + cmds.length), cmd⟩] := by
  rw [copiesFrom, List.mapIdx_concat]
  rfl

/-- A history keeps the last of the copies of its commands. -/
theorem historyAfter_keeps {supply : Nat → Nat} {heap : HeapCalls} (slots : Nat → HeapString)
    (cmds : List (List UInt8)) (memory : Granted supply heap.requests cmds.length) :
    (historyAfter supply (noHistory slots heap) cmds).Keeps heap (copiesFrom supply heap.requests cmds) := by
  -- The last command is the one that is taken off.
  induction cmds using List.reverseRecOn with
  | nil =>
    refine ⟨?_, ?_, ?_⟩
    · simp [historyAfter, noHistory, copiesFrom, lastItems, Machine.slots]
    · simp [historyAfter, noHistory, copiesFrom]
    · simp [historyAfter, noHistory, copiesFrom, leftItems]
  | append_singleton front last ih =>
    rw [List.length_append, List.length_singleton] at memory
    -- Each copy has an answer of its own from the allocator.
    obtain ⟨earlier, now⟩ := granted_add.mp memory
    have length : (copiesFrom supply heap.requests front).length = front.length := by
      rw [copiesFrom, List.length_mapIdx]
    have added := (ih earlier).add (by rw [length]; exact granted_one.mp now) last
    rw [length] at added
    rw [copiesFrom_snoc, historyAfter, List.foldl_append]
    exact added

/-- Numbered commands of one byte, two more than there is room for. -/
def numberedCmds : List (List UInt8) := (List.range 1026).map fun n => [n.toUInt8]

end MiraOS

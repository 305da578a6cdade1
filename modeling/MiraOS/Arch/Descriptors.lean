import MiraOS.Machine.Layout
import MiraOS.Machine.Words
import MiraOS.Arch.SyscallEntry

/-! The tables of segments and gates that arch/x86_64/gdt.c, idt.c and isr.c fill, as the processor reads them. -/

namespace MiraOS

open Machine

/-- The fields of a segment descriptor. -/
def gdtFields (base limit : UInt32) (access gran : UInt8) : List (Nat × Nat) :=
  [(2, (limit &&& 0xFFFF).toNat),
    (2, (base &&& 0xFFFF).toNat),
    (1, (base >>> 16 &&& 0xFF).toNat),
    (1, access.toNat),
    -- The low half of this byte has the highest bits of the limit.
    (1, ((limit >>> 16 &&& 0x0F).toUInt8 ||| gran &&& 0xF0).toNat),
    (1, (base >>> 24 &&& 0xFF).toNat)]

/-- Store a segment descriptor. -/
def gdtSetEntry (mem : Memory) (gdt idx : Nat) (base limit : UInt32) (access gran : UInt8) : Memory :=
  storeFields mem (gdt + 8 * idx) (gdtFields base limit access gran)

/-- The fields of the descriptor of the task state, which takes two entries. -/
def tssFields (base : UInt64) (limit : UInt32) : List (Nat × Nat) :=
  [(2, (limit &&& 0xFFFF).toNat),
    (2, (base &&& 0xFFFF).toNat),
    (1, (base >>> 16 &&& 0xFF).toNat),
    (1, 0x89),
    (1, (limit >>> 16 &&& 0x0F).toNat),
    (1, (base >>> 24 &&& 0xFF).toNat),
    (4, (base >>> 32).toNat),
    (4, 0)]

/-- Store the descriptor of the task state. -/
def gdtSetTss (mem : Memory) (gdt idx : Nat) (base : UInt64) (limit : UInt32) : Memory :=
  storeFields mem (gdt + 8 * idx) (tssFields base limit)

/-- The sizes of the tables and of the task state, and the place of its last field. -/
def gdtEntries : Nat := 7
def idtEntries : Nat := 256
def tssSize : Nat := 104
def tssIopbOffset : Nat := 102

/-- Fill the table of segments. -/
def gdtInit (gdt tss : Nat) (mem : Memory) : Memory :=
  let mem := gdtSetEntry mem gdt 0 0 0 0 0
  let mem := gdtSetEntry mem gdt 1 0 0xFFFFF 0x9A 0xA0
  let mem := gdtSetEntry mem gdt 2 0 0xFFFFF 0x92 0xA0
  let mem := gdtSetEntry mem gdt 3 0 0xFFFFF 0xFA 0xA0
  let mem := gdtSetEntry mem gdt 4 0 0xFFFFF 0xF2 0xA0
  let mem := writeLE mem (tss + tssIopbOffset) 2 tssSize
  gdtSetTss mem gdt 5 (UInt64.ofNat tss) (UInt32.ofNat (tssSize - 1))

/-- The fields of an interrupt gate. -/
def idtFields (handler : UInt64) (typeAttr : UInt8) : List (Nat × Nat) :=
  [(2, (handler &&& 0xFFFF).toNat),
    (2, 0x08),
    (1, 0),
    (1, typeAttr.toNat),
    (2, (handler >>> 16 &&& 0xFFFF).toNat),
    (4, (handler >>> 32 &&& 0xFFFFFFFF).toNat),
    (4, 0)]

/-- Store an interrupt gate. -/
def idtSetGate (mem : Memory) (idt num : Nat) (handler : UInt64) (typeAttr : UInt8) : Memory :=
  storeFields mem (idt + 16 * num) (idtFields handler typeAttr)

/-- Clear all gates. -/
def idtInit (idt : Nat) (mem : Memory) : Memory :=
  (List.range idtEntries).foldl (fun mem i => idtSetGate mem idt i 0 0) mem

/-- The gates of the stubs, at the addresses where these are. -/
def isrGates (idt : Nat) (stubs : Nat → UInt64) (mem : Memory) : Memory :=
  (List.range 48).foldl (fun mem i => idtSetGate mem idt i (stubs i) 0x8E) mem

/-- A segment as the processor reads it. -/
structure Segment where
  base : Nat
  limit : Nat
  access : Nat
  flags : Nat
  deriving DecidableEq

/-- A segment from the fields of its descriptor. -/
def segmentFrom : List Nat → Option Segment
  | [limitLow, baseLow, baseMid, access, granularity, baseHigh] =>
    some ⟨baseLow + 2 ^ 16 * baseMid + 2 ^ 24 * baseHigh, limitLow + 2 ^ 16 * (granularity % 16), access,
      granularity / 16⟩
  | _ => none

/-- The segment of an entry of the table. -/
def segmentIn (mem : Memory) (gdt idx : Nat) : Option Segment :=
  segmentFrom (loadFields mem (gdt + 8 * idx) [2, 2, 1, 1, 1, 1])

/-- The bits of the access byte, and the one for code of 64 bits. -/
def Segment.Present (segment : Segment) : Prop := segment.access / 128 % 2 = 1
def Segment.ring (segment : Segment) : Nat := segment.access / 32 % 4
def Segment.System (segment : Segment) : Prop := segment.access / 16 % 2 = 0
def Segment.Executable (segment : Segment) : Prop := segment.access / 8 % 2 = 1
def Segment.Long (segment : Segment) : Prop := segment.flags / 2 % 2 = 1

/-- A gate as the processor reads it. -/
structure Gate where
  offset : Nat
  selector : Nat
  ist : Nat
  typeAttr : Nat
  deriving DecidableEq

/-- A gate from its fields. -/
def gateOf : List Nat → Option Gate
  | [offsetLow, selector, ist, typeAttr, offsetMid, offsetHigh, _] =>
    some ⟨offsetLow + 2 ^ 16 * offsetMid + 2 ^ 32 * offsetHigh, selector, ist, typeAttr⟩
  | _ => none

/-- The gate of a vector. -/
def gateAt (mem : Memory) (idt vector : Nat) : Option Gate :=
  gateOf (loadFields mem (idt + 16 * vector) [2, 2, 1, 1, 2, 4, 4])

/-- A word is the sum of its parts. -/
theorem toNat_parts (word : UInt32) :
    (word &&& 0xFFFF).toNat = word.toNat % 2 ^ 16 ∧ (word >>> 16 &&& 0xFF).toNat = word.toNat / 2 ^ 16 % 2 ^ 8 ∧
      (word >>> 24 &&& 0xFF).toNat = word.toNat / 2 ^ 24 := by
  -- Each part is a shift and a mask of ones, and so a quotient and a remainder.
  have low := word.toNat_lt
  refine ⟨?_, ?_, ?_⟩
  · rw [UInt32.toNat_and]
    exact Nat.and_two_pow_sub_one_eq_mod _ 16
  · rw [UInt32.toNat_and, UInt32.toNat_shiftRight, Nat.shiftRight_eq_div_pow]
    -- The highest part has nothing above it, so that its mask cuts nothing off.
    exact Nat.and_two_pow_sub_one_eq_mod _ 8
  · rw [UInt32.toNat_and, UInt32.toNat_shiftRight, Nat.shiftRight_eq_div_pow]
    refine (Nat.and_two_pow_sub_one_eq_mod _ 8).trans (Nat.mod_eq_of_lt ?_)
    show word.toNat / 2 ^ 24 < 2 ^ 8
    omega

/-- The byte with the highest bits of the limit has the flags in its other half. -/
theorem granularity_parts (high : UInt32) (few : high.toNat < 16) (gran : UInt8) :
    (high.toUInt8 ||| gran &&& 0xF0).toNat = high.toNat + 16 * (gran.toNat / 16) := by
  -- The mask clears the low half of a byte, and the four bits of the limit go there.
  have every : ∀ g < 256, g &&& 240 = g / 16 * 16 := by decide +kernel
  have flags : (gran &&& 0xF0).toNat = gran.toNat / 16 * 16 := by
    rw [UInt8.toNat_and]
    exact every gran.toNat gran.toNat_lt
  have byte : high.toUInt8.toNat = high.toNat := by
    rw [UInt32.toNat_toUInt8]
    omega
  rw [UInt8.toNat_or, byte, flags, Nat.or_comm, or_low_of_aligned (show gran.toNat / 16 * 16 % 2 ^ 4 = 0 by omega)]
  · omega
  · omega

/-- A segment descriptor says what it was made from, but for the bits of the limit that it has no place for. -/
theorem gdtFields_segment (base limit : UInt32) (access gran : UInt8) :
    segmentFrom ((gdtFields base limit access gran).map fun field => field.2 % 256 ^ field.1) =
      some ⟨base.toNat, limit.toNat % 2 ^ 20, access.toNat, gran.toNat / 16⟩ := by
  -- Base and limit lie in pieces between other fields, and are put together again by their remainders.
  obtain ⟨baseLow, baseMid, baseHigh⟩ := toNat_parts base
  have limitLow := (toNat_parts limit).1
  have limitHigh : (limit >>> 16 &&& 0x0F).toNat = limit.toNat / 2 ^ 16 % 2 ^ 4 := by
    rw [UInt32.toNat_and, UInt32.toNat_shiftRight, Nat.shiftRight_eq_div_pow]
    exact Nat.and_two_pow_sub_one_eq_mod _ 4
  have granularity := granularity_parts (limit >>> 16 &&& 0x0F) (by omega) gran
  have word := base.toNat_lt
  have byte := access.toNat_lt
  have flags := gran.toNat_lt
  rw [gdtFields, baseLow, baseMid, baseHigh, limitLow, granularity, limitHigh]
  simp only [List.map_cons, List.map_nil, segmentFrom, Option.some.injEq, Segment.mk.injEq]
  omega

/-- A gate says what it was made from. -/
theorem idtFields_gate (handler : UInt64) (typeAttr : UInt8) :
    gateOf ((idtFields handler typeAttr).map fun field => field.2 % 256 ^ field.1) =
      some ⟨handler.toNat, 0x08, 0, typeAttr.toNat⟩ := by
  -- The three pieces of the address fill its 64 bits.
  have low : (handler &&& 0xFFFF).toNat = handler.toNat % 2 ^ 16 := by
    rw [UInt64.toNat_and]
    exact Nat.and_two_pow_sub_one_eq_mod _ 16
  have mid : (handler >>> 16 &&& 0xFFFF).toNat = handler.toNat / 2 ^ 16 % 2 ^ 16 := by
    rw [UInt64.toNat_and, UInt64.toNat_shiftRight, Nat.shiftRight_eq_div_pow]
    exact Nat.and_two_pow_sub_one_eq_mod _ 16
  have high : (handler >>> 32 &&& 0xFFFFFFFF).toNat = handler.toNat / 2 ^ 32 % 2 ^ 32 := by
    rw [UInt64.toNat_and, UInt64.toNat_shiftRight, Nat.shiftRight_eq_div_pow]
    exact Nat.and_two_pow_sub_one_eq_mod _ 32
  have word := handler.toNat_lt
  have byte := typeAttr.toNat_lt
  rw [idtFields, low, mid, high]
  simp only [List.map_cons, List.map_nil, gateOf, Option.some.injEq, Gate.mk.injEq]
  omega

section

variable {mem : Memory} {gdt tss idt : Nat}

/-- The entries of the table of segments in front of that of the task state. -/
def gdtEntry : Nat → List (Nat × Nat)
  | 0 => gdtFields 0 0 0 0
  | 1 => gdtFields 0 0xFFFFF 0x9A 0xA0
  | 2 => gdtFields 0 0xFFFFF 0x92 0xA0
  | 3 => gdtFields 0 0xFFFFF 0xFA 0xA0
  | 4 => gdtFields 0 0xFFFFF 0xF2 0xA0
  | _ => gdtFields 0 0 0 0

/-- Filling the table stores these, a field of the task state and its descriptor. -/
theorem gdtInit_eq (gdt tss : Nat) (mem : Memory) :
    gdtInit gdt tss mem = gdtSetTss
      (writeLE (storeTable mem gdt 8 gdtEntry (List.range 5)) (tss + tssIopbOffset) 2 tssSize) gdt 5
      (UInt64.ofNat tss) (UInt32.ofNat (tssSize - 1)) := rfl

/-- All of these entries have the fields of a descriptor. -/
theorem gdtEntry_widths (i : Nat) : (gdtEntry i).map Prod.fst = [2, 2, 1, 1, 1, 1] := by
  unfold gdtEntry
  split <;> rfl

/-- The entries in front of that of the task state are what was stored for them. -/
theorem gdtInit_segment (apart : gdt + 56 ≤ tss ∨ tss + tssSize ≤ gdt) {i : Nat} (front : i < 5) :
    segmentIn (gdtInit gdt tss mem) gdt i =
      segmentFrom ((gdtEntry i).map fun field => field.2 % 256 ^ field.1) := by
  have size : tssSize = 104 := rfl
  have offset : tssIopbOffset = 102 := rfl
  have read := @loadFields_storeTable gdt 8 gdtEntry [2, 2, 1, 1, 1, 1] gdtEntry_widths rfl mem (List.range 5) i
  rw [if_pos (List.mem_range.mpr front)] at read
  rw [segmentIn, gdtInit_eq, gdtSetTss, ← read]
  -- The descriptor of the task state is behind them, and the task state is elsewhere.
  refine congrArg segmentFrom ?_
  have widths : [2, 2, 1, 1, 1, 1].sum = 8 := rfl
  refine (loadFields_congr fun at_ low high => storeFields_outside (Or.inl ?_)).trans
    (loadFields_congr fun at_ low high => writeLE_outside ?_)
  · omega
  · omega

/-- Where the descriptor of the task state starts, there is one of the system, and its base is in both entries. -/
theorem gdtInit_tss (small : tss < 2 ^ 64) :
    segmentIn (gdtInit gdt tss mem) gdt 5 = some ⟨tss % 2 ^ 32, tssSize - 1, 0x89, 0⟩ ∧
      loadFields (gdtInit gdt tss mem) (gdt + 48) [4] = [tss / 2 ^ 32] := by
  set middle := writeLE (storeTable mem gdt 8 gdtEntry (List.range 5)) (tss + tssIopbOffset) 2 tssSize
  set base := UInt64.ofNat tss with baseIs
  have value : base.toNat = tss := UInt64.toNat_ofNat_of_lt' small
  have low : (base &&& 0xFFFF).toNat = tss % 2 ^ 16 := by
    rw [UInt64.toNat_and, value]
    exact Nat.and_two_pow_sub_one_eq_mod _ 16
  have mid : (base >>> 16 &&& 0xFF).toNat = tss / 2 ^ 16 % 2 ^ 8 := by
    rw [UInt64.toNat_and, UInt64.toNat_shiftRight, Nat.shiftRight_eq_div_pow, value]
    exact Nat.and_two_pow_sub_one_eq_mod _ 8
  have high : (base >>> 24 &&& 0xFF).toNat = tss / 2 ^ 24 % 2 ^ 8 := by
    rw [UInt64.toNat_and, UInt64.toNat_shiftRight, Nat.shiftRight_eq_div_pow, value]
    exact Nat.and_two_pow_sub_one_eq_mod _ 8
  have upper : (base >>> 32).toNat = tss / 2 ^ 32 := by
    rw [UInt64.toNat_shiftRight, Nat.shiftRight_eq_div_pow, value]
    rfl
  -- The first six fields are those of an entry of the table, and the next one has the rest of the base.
  set values : List Nat := [103, tss % 2 ^ 16, tss / 2 ^ 16 % 2 ^ 8, 0x89, 0, tss / 2 ^ 24 % 2 ^ 8] with valuesAre
  have fields : (tssFields base 103).map (fun field => field.2 % 256 ^ field.1) =
      values ++ ([tss / 2 ^ 32] ++ [0]) := by
    rw [tssFields, low, mid, high, upper]
    simp only [valuesAre, List.map_cons, List.map_nil, List.cons_append, List.nil_append, List.cons.injEq, and_true]
    refine ⟨rfl, by omega, by omega, rfl, rfl, by omega, by omega, rfl⟩
  have widths : (tssFields base 103).map Prod.fst = [2, 2, 1, 1, 1, 1] ++ ([4] ++ [4]) := rfl
  have parts := loadFields_storeFields middle (gdt + 40) (tssFields base 103)
  rw [widths, fields, loadFields_append, loadFields_append] at parts
  obtain ⟨entry, rest⟩ := List.append_inj parts (by simp [values])
  obtain ⟨second, -⟩ := List.append_inj rest (by simp)
  have filled : gdtInit gdt tss mem = storeFields middle (gdt + 40) (tssFields base 103) := rfl
  rw [filled, segmentIn]
  refine ⟨?_, second⟩
  have sum : tss % 2 ^ 16 + 2 ^ 16 * (tss / 2 ^ 16 % 2 ^ 8) + 2 ^ 24 * (tss / 2 ^ 24 % 2 ^ 8) = tss % 2 ^ 32 := by
    have steps : tss / 2 ^ 24 = tss / 2 ^ 16 / 2 ^ 8 := (Nat.div_div_eq_div_mul tss (2 ^ 16) (2 ^ 8)).symm
    omega
  rw [entry, valuesAre, segmentFrom, sum]
  rfl

/-- The gate of a vector leads to its stub, and those without a stub are cleared. -/
theorem isrGates_gate (stubs : Nat → UInt64) {vector : Nat} (small : vector < 256) :
    gateAt (isrGates idt stubs (idtInit idt mem)) idt vector =
      some (if vector < 48 then ⟨(stubs vector).toNat, 0x08, 0, 0x8E⟩ else ⟨0, 0x08, 0, 0⟩) := by
  -- The table is filled twice, first with empty gates and then with those of the stubs in front.
  have widths : ∀ (handlers : Nat → UInt64) (type : UInt8) (i : Nat),
      (idtFields (handlers i) type).map Prod.fst = [2, 2, 1, 1, 2, 4, 4] := fun _ _ _ => rfl
  have cleared := @loadFields_storeTable idt 16 (fun i => idtFields ((fun _ => 0) i) 0) _ (widths _ 0) rfl mem
    (List.range 256) vector
  have filled := @loadFields_storeTable idt 16 (fun i => idtFields (stubs i) 0x8E) _ (widths stubs 0x8E) rfl
    (idtInit idt mem) (List.range 48) vector
  rw [if_pos (List.mem_range.mpr small)] at cleared
  have whole : isrGates idt stubs (idtInit idt mem) =
      storeTable (idtInit idt mem) idt 16 (fun i => idtFields (stubs i) 0x8E) (List.range 48) := rfl
  rw [gateAt, whole, filled]
  simp only [List.mem_range]
  split_ifs with stub
  · exact idtFields_gate (stubs vector) 0x8E
  · -- Behind the stubs what the first filling stored is still there.
    have before : loadFields (idtInit idt mem) (idt + 16 * vector) [2, 2, 1, 1, 2, 4, 4] =
        (idtFields 0 0).map fun field => field.2 % 256 ^ field.1 := cleared
    rw [before]
    exact idtFields_gate 0 0

/-- The tables of gates leave the bytes outside them as they are. -/
theorem isrGates_outside (stubs : Nat → UInt64) {at_ : Nat} (outside : at_ < idt ∨ idt + 4096 ≤ at_) :
    isrGates idt stubs (idtInit idt mem) at_ = mem at_ := by
  -- The 48 gates and the cleared table both lie within the 256 entries.
  have filled := @storeTable_outside (idtInit idt mem) idt 16 (fun i => idtFields (stubs i) 0x8E) (fun _ => rfl) 256
    at_ (List.range 48) (fun i among => by have small := List.mem_range.mp among; omega) outside
  have cleared := @storeTable_outside mem idt 16 (fun _ => idtFields 0 0) (fun _ => rfl) 256 at_ (List.range 256)
    (fun i among => List.mem_range.mp among) outside
  exact filled.trans cleared

end

/-- The memory after the tables were filled, from boot on. -/
def descriptorTables (gdt tss idt : Nat) (stubs : Nat → UInt64) (mem : Memory) : Memory :=
  isrGates idt stubs (idtInit idt (gdtInit gdt tss mem))

/-- The objects of the tables are apart. -/
structure TablesApart (gdt tss idt : Nat) : Prop where
  gdtTss : gdt + 56 ≤ tss ∨ tss + tssSize ≤ gdt
  gdtIdt : gdt + 56 ≤ idt ∨ idt + 4096 ≤ gdt
  small : tss < 2 ^ 64

/-- The tables of gates leave the table of segments. -/
theorem descriptorTables_segment {gdt tss idt : Nat} (apart : TablesApart gdt tss idt) (stubs : Nat → UInt64)
    (mem : Memory) {i : Nat} (inside : i < 7) :
    segmentIn (descriptorTables gdt tss idt stubs mem) gdt i = segmentIn (gdtInit gdt tss mem) gdt i := by
  -- A segment is read from the eight bytes of its own entry, and the interrupt table lies apart from them.
  have widths : [2, 2, 1, 1, 1, 1].sum = 8 := rfl
  have separate := apart.gdtIdt
  refine congrArg segmentFrom (loadFields_congr fun at_ low high => isrGates_outside stubs ?_)
  omega

/--
Whatever was in memory, every vector with a stub has a gate to it, through a segment of the kernel for code of 64 bits,
and no other vector has a gate that is present.

The selector that system calls return with is that of the task state, which is no segment for code.
-/
theorem interrupts_enter_stubs {gdt tss idt : Nat} (apart : TablesApart gdt tss idt) (stubs : Nat → UInt64)
    (mem : Memory) :
    let tables := descriptorTables gdt tss idt stubs mem
    (∀ vector < 256, ∃ gate, gateAt tables idt vector = some gate ∧
      if vector < 48 then gate = ⟨(stubs vector).toNat, gdtKernelCode.toNat, 0, 0x8E⟩ else gate.typeAttr / 128 = 0) ∧
    (∃ code, segmentIn tables gdt (gdtKernelCode.toNat / 8) = some code ∧ code.Present ∧ code.ring = 0 ∧
      ¬ code.System ∧ code.Executable ∧ code.Long) ∧
    ∃ task, segmentIn tables gdt ((gdtTss ||| 3).toNat / 8) = some task ∧ task.System ∧ task.base = tss % 2 ^ 32 := by
  -- The three parts ask for a gate, the segment of the kernel and the state of the task, each from its own
  -- table.
  refine ⟨fun vector small => ⟨_, isrGates_gate stubs small, ?_⟩, ?_, ?_⟩
  · split_ifs
    · rfl
    · rfl
  · -- What a later table stores lies elsewhere, so that the segment of the kernel is still as it was set.
    have code : segmentIn (gdtInit gdt tss mem) gdt 1 = some ⟨0, 0xFFFFF, 0x9A, 0xA⟩ :=
      (gdtInit_segment apart.gdtTss (by omega)).trans (gdtFields_segment 0 0xFFFFF 0x9A 0xA0)
    refine ⟨_, (descriptorTables_segment apart stubs mem (show 1 < 7 by omega)).trans code, ?_⟩
    simp [Segment.Present, Segment.ring, Segment.System, Segment.Executable, Segment.Long]
  · have task := (@gdtInit_tss mem gdt tss apart.small).1
    refine ⟨_, (descriptorTables_segment apart stubs mem (show 5 < 7 by omega)).trans task, ?_, rfl⟩
    simp [Segment.System]

/-- The vector of the timer has a gate to its stub, wherever that is. -/
theorem timer_gate : ∃ gate,
    gateAt (descriptorTables 0x10000 0x11000 0x12000 (fun vector => 0x200000 + 16 * UInt64.ofNat vector)
      fun _ => 0xCC) 0x12000 32 = some gate ∧ gate.offset = 0x200200 := by
  have apart : TablesApart 0x10000 0x11000 0x12000 := ⟨by decide, by decide, by decide⟩
  -- Vector 32 is one of the 48 gates, so its stub is the one at its own address.
  obtain ⟨gate, found, leads⟩ := (interrupts_enter_stubs apart _ fun _ => 0xCC).1 32 (by decide)
  rw [if_pos (by decide)] at leads
  exact ⟨gate, found, by rw [leads]; rfl⟩

end MiraOS

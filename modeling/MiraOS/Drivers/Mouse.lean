import Mathlib.Logic.Function.Iterate
import MiraOS.Drivers.InterruptRouting
import MiraOS.Machine.Histories
import MiraOS.Machine.Signed

/-! The packets of the mouse in drivers/ps2/mouse.c, and which of them are decoded as they are meant. -/

namespace MiraOS

open Machine

/-- The port that delivers bytes one after another, from a number of reads on. -/
def portOf (reads : Nat) (bytes : List UInt8) (read : Nat) : UInt8 := bytes.getD (read - reads) 0

/-- The devices after interrupts of the mouse, one for each of these bytes. -/
def mouseFed (devices : Devices) (bytes : List UInt8) : Devices :=
  (mouseIrqHandler (portOf devices.reads bytes) 12)^[bytes.length] devices

/-- The movement that the handler takes from a byte and the sign bit of the packet. -/
def int8Delta (negative : Bool) (byte : UInt8) : Int :=
  (if negative then byte.toInt8 ||| 0xF0 else byte.toInt8).toInt

/-- A position that is kept from becoming negative, in 32-bit arithmetic. -/
def clampedSum (position movement : Int) : Int :=
  let sum := wrap32 (position + movement)
  if sum < 0 then 0 else sum

/-- A packet of the mouse, well formed: its first byte is marked and says that nothing overflowed. -/
structure MousePacket where
  flags : UInt8
  xByte : UInt8
  yByte : UInt8
  marked : flags &&& 0x08 ≠ 0
  noOverflow : flags &&& 0xC0 = 0

/-- The bytes of a packet, in order. -/
def MousePacket.bytes (packet : MousePacket) : List UInt8 := [packet.flags, packet.xByte, packet.yByte]

/-- The sign bits of a packet. -/
def MousePacket.leftward (packet : MousePacket) : Bool := packet.flags &&& 0x10 ≠ 0
def MousePacket.downward (packet : MousePacket) : Bool := packet.flags &&& 0x20 ≠ 0

/-- A movement of nine bits in two's complement. -/
def nineBits (negative : Bool) (byte : UInt8) : Int := if negative then (byte.toNat : Int) - 256 else byte.toNat

/-- The mouse after the bytes of packets. -/
def mouseAfter (devices : Devices) (packets : List MousePacket) : Mouse :=
  (mouseFed devices (packets.flatMap MousePacket.bytes)).mouse

/-- A packet moves the pointer by its true movement, and shows its buttons. -/
structure Decodes (before after : Mouse) (packet : MousePacket) : Prop where
  x : after.mouseX.toInt = max 0 (before.mouseX.toInt + nineBits packet.leftward packet.xByte)
  y : after.mouseY.toInt = max 0 (before.mouseY.toInt - nineBits packet.downward packet.yByte)
  buttons : after.mouseButtons = packet.flags &&& 0x07

/--
A movement to the side that the driver gets right from a position.

A movement to the right is less than 128, and stays in range. One to the left is at most 16, unless even the
smaller movement that is taken for it ends at the edge.
-/
def SidewaysAsMeant (x : Int) (packet : MousePacket) : Prop :=
  if packet.leftward then 240 ≤ packet.xByte.toNat ∨ x ≤ 16 - (packet.xByte.toNat % 16 : Nat)
  else packet.xByte.toNat < 128 ∧ x + packet.xByte.toNat < 2 ^ 31

/-- A movement up or down that the driver gets right from a position: up by less than 128, or down by at most 16
and within range. -/
def UpwardsAsMeant (y : Int) (packet : MousePacket) : Prop :=
  if packet.downward then 240 ≤ packet.yByte.toNat ∧ y + (256 - packet.yByte.toNat : Nat) < 2 ^ 31
  else packet.yByte.toNat < 128

/-- A packet whose movements the driver gets right. -/
def PacketAsMeant (mouse : Mouse) (packet : MousePacket) : Prop :=
  SidewaysAsMeant mouse.mouseX.toInt packet ∧ UpwardsAsMeant mouse.mouseY.toInt packet

/-- Between packets the position is a number that is not negative. -/
structure Mouse.Between (mouse : Mouse) : Prop where
  cycle : mouse.mouseCycle = 0
  x : 0 ≤ mouse.mouseX.toInt ∧ mouse.mouseX.toInt < 2 ^ 31
  y : 0 ≤ mouse.mouseY.toInt ∧ mouse.mouseY.toInt < 2 ^ 31

/-- The movement that the handler takes from a byte: with the high half set it is one of the last sixteen. -/
theorem int8Delta_eq (negative : Bool) (byte : UInt8) :
    int8Delta negative byte =
      if negative then ((byte.toNat % 16 : Nat) : Int) - 16
      else if byte.toNat < 128 then (byte.toNat : Int) else (byte.toNat : Int) - 256 := by
  -- There are as many bytes as can be tried.
  have every : ∀ n : Fin 256, int8Delta negative (UInt8.ofNat n) =
      if negative then ((n % 16 : Nat) : Int) - 16
      else if (n : Nat) < 128 then ((n : Nat) : Int) else ((n : Nat) : Int) - 256 := by
    cases negative <;> decide +kernel
  have here := every ⟨byte.toNat, byte.toNat_lt⟩
  rwa [show UInt8.ofNat ((⟨byte.toNat, _⟩ : Fin 256) : Nat) = byte by simp] at here

/-- A sum that is in range is kept from becoming negative. -/
theorem clampedSum_eq {position movement : Int} (fits : Signed32 (position + movement)) :
    clampedSum position movement = max 0 (position + movement) := by
  rw [clampedSum, wrap32_of_fits fits]
  -- The clamp takes the larger of the sum and zero.
  split <;> omega

/-- A sum past the range wraps to a negative number, and ends at the edge. -/
theorem clampedSum_past {position movement : Int} (past : 2 ^ 31 ≤ position + movement)
    (near : position + movement < 2 ^ 32) : clampedSum position movement = 0 := by
  -- One turn of the word is taken off.
  have wrapped : wrap32 (position + movement) = position + movement - 2 ^ 32 := by
    rw [wrap32, Int.bmod_def]
    split <;> omega
  rw [clampedSum, wrapped]
  exact if_pos (by omega)

/-- A clamped sum is a position. -/
theorem clampedSum_range (position movement : Int) :
    0 ≤ clampedSum position movement ∧ clampedSum position movement < 2 ^ 31 := by
  obtain ⟨-, high⟩ := wrap32_fits (position + movement)
  -- The sum wraps to 32 bits first, so the clamped value is below 2³¹.
  rw [clampedSum]
  split <;> omega

/-- The movement to the side is right exactly when it is said to be. -/
theorem sideways_iff {x : Int} (position : 0 ≤ x ∧ x < 2 ^ 31) (packet : MousePacket) :
    clampedSum x (int8Delta packet.leftward packet.xByte) =
        max 0 (x + nineBits packet.leftward packet.xByte) ↔ SidewaysAsMeant x packet := by
  have byte := packet.xByte.toNat_lt
  -- The sign bit decides how the byte is read.
  rw [int8Delta_eq, nineBits, SidewaysAsMeant]
  by_cases left : packet.leftward
  · -- To the left nothing leaves the range.
    rw [if_pos left, if_pos left, if_pos left, clampedSum_eq (by unfold Signed32; omega)]
    omega
  · rw [if_neg left, if_neg left, if_neg left]
    by_cases small : packet.xByte.toNat < 128
    · rw [if_pos small]
      by_cases inside : x + packet.xByte.toNat < 2 ^ 31
      · rw [clampedSum_eq (by unfold Signed32; omega)]
        omega
      · -- Past the range the sum wraps, and the pointer goes to the edge.
        rw [clampedSum_past (by omega) (by omega)]
        omega
    · -- A large movement is taken for one to the left.
      rw [if_neg small, clampedSum_eq (by unfold Signed32; omega)]
      omega

/-- The movement up or down is right exactly when it is said to be. -/
theorem upwards_iff {y : Int} (position : 0 ≤ y ∧ y < 2 ^ 31) (packet : MousePacket) :
    clampedSum y (-int8Delta packet.downward packet.yByte) =
        max 0 (y - nineBits packet.downward packet.yByte) ↔ UpwardsAsMeant y packet := by
  have byte := packet.yByte.toNat_lt
  -- On the screen down is the direction of larger numbers, so the movement is taken off.
  rw [int8Delta_eq, nineBits, UpwardsAsMeant]
  by_cases down : packet.downward
  · rw [if_pos down, if_pos down, if_pos down]
    by_cases inside : y + -(((packet.yByte.toNat % 16 : Nat) : Int) - 16) < 2 ^ 31
    · rw [clampedSum_eq (by unfold Signed32; omega)]
      omega
    · rw [clampedSum_past (by omega) (by omega)]
      omega
  · rw [if_neg down, if_neg down, if_neg down]
    by_cases small : packet.yByte.toNat < 128
    · rw [if_pos small, clampedSum_eq (by unfold Signed32; omega)]
      omega
    · -- A large movement up is taken for one down.
      rw [if_neg small]
      by_cases inside : y + -((packet.yByte.toNat : Int) - 256) < 2 ^ 31
      · rw [clampedSum_eq (by unfold Signed32; omega)]
        omega
      · rw [clampedSum_past (by omega) (by omega)]
        omega

/-- A sum of words that is stopped at the edge. -/
theorem clamped_toInt {sum : Int32} {position movement : Int}
    (summed : sum.toInt = (position + movement).bmod (2 ^ 32)) :
    (if sum < 0 then 0 else sum).toInt = clampedSum position movement := by
  -- The sum of 32 bits is the wrapped one, and its sign is read after the wrap.
  rw [clampedSum, wrap32, ← summed]
  have sign : sum < 0 ↔ sum.toInt < 0 := Int32.lt_iff_toInt_lt
  by_cases negative : sum < 0
  · rw [if_pos negative, if_pos (sign.mp negative)]
    rfl
  · rw [if_neg negative, if_neg fun below => negative (sign.mpr below)]

/-- The three bytes of a packet, from a mouse that waits for the first. -/
theorem mouseByte_packet {mouse : Mouse} (between : mouse.Between) (packet : MousePacket) :
    ∃ after, packet.bytes.foldl mouseByte mouse = after ∧ after.Between ∧
      after.mouseX.toInt = clampedSum mouse.mouseX.toInt (int8Delta packet.leftward packet.xByte) ∧
      after.mouseY.toInt = clampedSum mouse.mouseY.toInt (-int8Delta packet.downward packet.yByte) ∧
      after.mouseButtons = packet.flags &&& 0x07 := by
  have cycle := between.cycle
  have marked := packet.marked
  -- The first byte is marked, so the handler goes on to the second and the third.
  have ran : packet.bytes.foldl mouseByte mouse =
      mouseReport { mouse with
        mousePacket0 := packet.flags, mousePacket1 := packet.xByte, mousePacket2 := packet.yByte,
        mouseCycle := 0 } := by
    simp [MousePacket.bytes, mouseByte, cycle, marked]
  -- The movement to the side is added, and stopped at the edge.
  have x : (mouseReport { mouse with
        mousePacket0 := packet.flags, mousePacket1 := packet.xByte, mousePacket2 := packet.yByte,
        mouseCycle := 0 }).mouseX.toInt =
      clampedSum mouse.mouseX.toInt (int8Delta packet.leftward packet.xByte) := by
    apply clamped_toInt
    rw [Int32.toInt_add, Int8.toInt_toInt32, int8Delta, MousePacket.leftward]
    simp
  -- The movement up is taken off.
  have y : (mouseReport { mouse with
        mousePacket0 := packet.flags, mousePacket1 := packet.xByte, mousePacket2 := packet.yByte,
        mouseCycle := 0 }).mouseY.toInt =
      clampedSum mouse.mouseY.toInt (-int8Delta packet.downward packet.yByte) := by
    apply clamped_toInt
    rw [Int32.toInt_sub, Int8.toInt_toInt32, int8Delta, MousePacket.downward, Int.sub_eq_add_neg]
    simp
  refine ⟨_, ran, ⟨rfl, ?_, ?_⟩, x, y, rfl⟩
  · rw [x]
    exact clampedSum_range ..
  · rw [y]
    exact clampedSum_range ..

/-- Interrupts of the mouse hand it the bytes of the port in order. -/
theorem mouseIrqHandler_iterate (inb : Nat → UInt8) {devices : Devices} (count : Nat)
    (inside : devices.mouse.mouseCycle ≤ 2) :
    ((mouseIrqHandler inb 12)^[count] devices).mouse =
        ((List.range count).map fun i => inb (devices.reads + i)).foldl mouseByte devices.mouse ∧
      ((mouseIrqHandler inb 12)^[count] devices).mouse.mouseCycle ≤ 2 ∧
      ((mouseIrqHandler inb 12)^[count] devices).reads = devices.reads + count := by
  -- The last interrupt is the one that is taken off.
  induction count with
  | zero => exact ⟨rfl, inside, rfl⟩
  | succ count ih =>
    obtain ⟨mouse, cycle, reads⟩ := ih
    rw [Function.iterate_succ_apply', mouseIrqHandler, if_pos cycle]
    refine ⟨?_, mouseByte_cycle _ _, ?_⟩
    · rw [List.range_succ, List.map_append, List.foldl_append, ← mouse, reads]
      rfl
    · rw [reads]
      rfl

/-- The mouse after bytes of the port. -/
theorem mouseFed_mouse {devices : Devices} (inside : devices.mouse.mouseCycle ≤ 2) (bytes : List UInt8) :
    (mouseFed devices bytes).mouse = bytes.foldl mouseByte devices.mouse := by
  rw [mouseFed, (mouseIrqHandler_iterate _ _ inside).1]
  congr 1
  -- The port delivers these bytes.
  apply List.ext_getElem?
  intro i
  rw [List.getElem?_map]
  by_cases early : i < bytes.length
  · -- Inside the list both read the same byte.
    simp [portOf, early]
  · rw [List.getElem?_eq_none (by simpa using early), List.getElem?_eq_none (by omega)]
    rfl

section

variable (kernel : Kernel) (kbdBuffer : Nat → UInt8) (old : UInt8 × UInt8 × UInt8) (reads : Nat)

/-- The mouse after packets, one packet after another. -/
theorem mouseAfter_eq (packets : List MousePacket) :
    mouseAfter (devicesStart kernel kbdBuffer old reads) packets =
      packets.foldl (fun mouse packet => packet.bytes.foldl mouseByte mouse)
        (devicesStart kernel kbdBuffer old reads).mouse := by
  rw [mouseAfter, mouseFed_mouse UInt8.zero_le, List.foldl_flatMap]

/-- The mouse waits for a first byte after every packet. -/
theorem mouseAfter_between (packets : List MousePacket) :
    (mouseAfter (devicesStart kernel kbdBuffer old reads) packets).Between := by
  rw [mouseAfter_eq]
  have start : (devicesStart kernel kbdBuffer old reads).mouse.Between :=
    ⟨rfl, by simp [devicesStart], by simp [devicesStart]⟩
  -- Every packet leaves the mouse between packets.
  refine foldl_keeps start fun mouse packet _ between => ?_
  obtain ⟨after, ran, held, -⟩ := mouseByte_packet between packet
  rwa [ran]

/--
Every packet of a stream is decoded as it is meant exactly when its movements are small.

The sign bit sets the high half of a byte only, and without it the byte has a sign of its own.
-/
theorem mouse_decodes_iff (packets : List MousePacket) :
    let after := mouseAfter (devicesStart kernel kbdBuffer old reads)
    (∀ before packet, before ++ [packet] <+: packets →
        Decodes (after before) (after (before ++ [packet])) packet) ↔
      ∀ before packet, before ++ [packet] <+: packets → PacketAsMeant (after before) packet := by
  intro after
  -- Each packet is right or wrong by itself.
  have one : ∀ before packet,
      Decodes (after before) (after (before ++ [packet])) packet ↔ PacketAsMeant (after before) packet := by
    intro before packet
    have between := mouseAfter_between kernel kbdBuffer old reads before
    obtain ⟨last, ran, -, x, y, buttons⟩ := mouseByte_packet between packet
    have next : after (before ++ [packet]) = last := by
      rw [← ran]
      simp only [after, mouseAfter_eq, List.foldl_append, List.foldl_cons, List.foldl_nil]
    -- The two directions have nothing to do with one another.
    rw [next, PacketAsMeant, ← sideways_iff between.x, ← upwards_iff between.y]
    constructor
    · rintro ⟨right, up, -⟩
      exact ⟨x.symm.trans right, y.symm.trans up⟩
    · rintro ⟨right, up⟩
      exact ⟨x.trans right, y.trans up, buttons⟩
  simp only [one]

end

/-- A packet that moves the pointer 200 places to the right. -/
def farRight : MousePacket := ⟨0x08, 200, 0, by decide, by decide⟩

/-- The devices at their start, before any process and without page frames. -/
def idleDevices : Devices := devicesStart (bootKernel ⟨fun _ => 0, 0, 0, 0, 0⟩) (fun _ => 0) (0, 0, 0) 0

/-- The movement by 200 places leaves the pointer at the edge. -/
theorem far_right_lost :
    ¬ Decodes (mouseAfter idleDevices []) (mouseAfter idleDevices [farRight]) farRight := by
  intro decodes
  have x := decodes.x
  -- The byte 200 is read as −56, and the clamp keeps the pointer at 0.
  rw [idleDevices, mouseAfter_eq, mouseAfter_eq] at x
  revert x
  decide +kernel

end MiraOS

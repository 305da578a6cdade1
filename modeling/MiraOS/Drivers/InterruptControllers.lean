import Mathlib.Data.Finset.Insert
import MiraOS.Drivers.Interrupts

/-! The two interrupt controllers of drivers/pic.c, and the interrupts that pass through them to isr_handler. -/

namespace MiraOS

open Machine

/-- The ports of the controllers. -/
def pic1Cmd : Nat := 0x20
def pic1Data : Nat := 0x21
def pic2Cmd : Nat := 0xA0
def pic2Data : Nat := 0xA1

/-- The command that ends an interrupt. -/
def picEoi : UInt8 := 0x20

/-- The first vectors of the controllers. -/
def pic1Offset : UInt8 := 0x20
def pic2Offset : UInt8 := 0x28

/-- What arch/x86_64/isr.c writes to the controllers at the start: all lines get through. -/
def picRemap : List (Nat × UInt8) :=
  [(0x20, 0x11), (0xA0, 0x11), (0x21, 0x20), (0xA1, 0x28), (0x21, 0x04), (0xA1, 0x02), (0x21, 0x01), (0xA1, 0x01),
    (0x21, 0x0), (0xA1, 0x0)]

/-- What drivers/pic.c writes to them: no line gets through. -/
def picInit : List (Nat × UInt8) :=
  [(pic1Cmd, 0x11), (pic2Cmd, 0x11), (pic1Data, pic1Offset), (pic2Data, pic2Offset), (pic1Data, 0x04),
    (pic2Data, 0x02), (pic1Data, 0x01), (pic2Data, 0x01), (pic1Data, 0xFF), (pic2Data, 0xFF)]

/-- The bit of a line, without the bits that a byte has no room for. -/
def picBit (irq : UInt8) : UInt8 := ((1 : UInt32) <<< irq.toUInt32).toUInt8

/-- Keep a line from getting through: the port and the value that are written. -/
def picMaskIrq (inb : Nat → UInt8) (irq : UInt8) : Nat × UInt8 :=
  let port := if irq < 8 then pic1Data else pic2Data
  let irq := if irq < 8 then irq else irq - 8
  (port, inb port ||| picBit irq)

/-- Let a line get through. -/
def picUnmaskIrq (inb : Nat → UInt8) (irq : UInt8) : Nat × UInt8 :=
  let port := if irq < 8 then pic1Data else pic2Data
  let irq := if irq < 8 then irq else irq - 8
  (port, inb port &&& ~~~ picBit irq)

/-- A controller: the words of its initialisation that are still to come, what they set, the masked lines as bits,
and the lines that wait and that are in service. -/
structure Pic where
  awaited : Nat
  offset : UInt8
  cascade : UInt8
  mask : UInt8
  requests : Finset Nat
  service : Finset Nat

/-- A line that is masked. -/
def Pic.Masked (pic : Pic) (line : Nat) : Prop := pic.mask.toNat.testBit line = true

instance (pic : Pic) (line : Nat) : Decidable (pic.Masked line) := inferInstanceAs (Decidable (_ = true))

/-- The line that a controller signals: the first one that waits and is not masked, in front of all in service. -/
def Pic.signal (pic : Pic) (requests : Finset Nat) : Option Nat :=
  (List.range 8).find? fun line =>
    decide (line ∈ requests ∧ ¬ pic.Masked line ∧ ∀ served ∈ pic.service, line < served)

/-- Take a line into service. -/
def Pic.take (pic : Pic) (line : Nat) : Pic :=
  { pic with requests := pic.requests.erase line, service := insert line pic.service }

/-- A byte at the command port: the initialisation starts, or the first line in service is done. -/
def Pic.command (pic : Pic) (value : UInt8) : Pic :=
  if value = 0x11 then { pic with awaited := 3, mask := 0, requests := ∅ }
  else if value = picEoi then
    match (List.range 8).find? fun line => decide (line ∈ pic.service) with
    | some line => { pic with service := pic.service.erase line }
    | none => pic
  else pic

/-- A byte at the data port: a word of the initialisation, or the masks. -/
def Pic.data (pic : Pic) (value : UInt8) : Pic :=
  match pic.awaited with
  | 3 => { pic with awaited := 2, offset := value }
  | 2 => { pic with awaited := 1, cascade := value }
  | 1 => { pic with awaited := 0 }
  | _ => { pic with mask := value }

/-- The two controllers; the second one hangs on line 2 of the first one. -/
structure Pics where
  master : Pic
  slave : Pic

/-- A byte that is written to a port. -/
def Pics.write (pics : Pics) (access : Nat × UInt8) : Pics :=
  if access.1 = pic1Cmd then { pics with master := pics.master.command access.2 }
  else if access.1 = pic1Data then { pics with master := pics.master.data access.2 }
  else if access.1 = pic2Cmd then { pics with slave := pics.slave.command access.2 }
  else if access.1 = pic2Data then { pics with slave := pics.slave.data access.2 }
  else pics

/-- The data ports read as the masks. -/
def Pics.read (pics : Pics) (port : Nat) : UInt8 := if port = pic1Data then pics.master.mask else pics.slave.mask

/-- The lines that wait at the first controller, with the second one's. -/
def Pics.wired (pics : Pics) : Finset Nat :=
  if (pics.slave.signal pics.slave.requests).isSome then insert 2 pics.master.requests else pics.master.requests

/-- What the processor does with interrupts: it takes them, asks the second controller for the vector, or handles
one with further ones kept off. -/
inductive CpuTurn where
  | running
  | asking
  | handling (vector : Nat)
  deriving DecidableEq

/-- The controllers, the processor and the devices. -/
structure InterruptSystem where
  pics : Pics
  turn : CpuTurn
  devices : Devices

/-- What happens around interrupts: devices ask for one or no longer do, the processor takes one in one or two parts,
its handler ends, and the kernel masks lines. -/
inductive InterruptEvent where
  | raise (line : Nat)
  | withdraw (line : Nat)
  | accept
  | answer
  | finish
  | mask (irq : UInt8)
  | unmask (irq : UInt8)

/-- A device begins or ceases to ask. No device is on line 2. -/
def Pics.wire (pics : Pics) (change : Finset Nat → Nat → Finset Nat) (line : Nat) : Option Pics :=
  if line < 8 ∧ line ≠ 2 then
    some { pics with master := { pics.master with requests := change pics.master.requests line } }
  else if 8 ≤ line ∧ line < 16 then
    some { pics with slave := { pics.slave with requests := change pics.slave.requests (line - 8) } }
  else none

/-- The first controller answers with a vector, unless the line is that of the second one. -/
def Pics.accept (pics : Pics) : CpuTurn × Pics :=
  match pics.master.signal pics.wired with
  -- The request has gone again: the vector of the last line, with nothing in service.
  | none => (.handling (pics.master.offset.toNat + 7), pics)
  | some line =>
    let taken := { pics with master := pics.master.take line }
    if pics.master.cascade.toNat.testBit line ∧ pics.slave.cascade.toNat = line then (.asking, taken)
    else (.handling (pics.master.offset.toNat + line), taken)

/-- The second controller answers. -/
def Pics.answer (pics : Pics) : CpuTurn × Pics :=
  match pics.slave.signal pics.slave.requests with
  | none => (.handling (pics.slave.offset.toNat + 7), pics)
  | some line => (.handling (pics.slave.offset.toNat + line), { pics with slave := pics.slave.take line })

section

variable (inb : Nat → UInt8)

/-- The handler of a vector runs, with what it sends to the controllers. -/
def handleInterrupt (vector : Nat) (sys : InterruptSystem) : Option InterruptSystem :=
  match isrHandler noHandlers (driverSubsystemInit (linkedDrivers inb)) vector { sys.devices with sent := [] } with
  | .ok devices => some ⟨devices.sent.foldl Pics.write sys.pics, .running, devices⟩
  | .error _ => none

/-- The system after an event, unless it cannot happen. -/
def interruptStep (sys : InterruptSystem) : InterruptEvent → Option InterruptSystem
  | .raise line => (sys.pics.wire (fun lines line => insert line lines) line).map fun pics => { sys with pics := pics }
  | .withdraw line => (sys.pics.wire Finset.erase line).map fun pics => { sys with pics := pics }
  | .accept =>
    if sys.turn = .running then some { sys with turn := sys.pics.accept.1, pics := sys.pics.accept.2 } else none
  | .answer =>
    if sys.turn = .asking then some { sys with turn := sys.pics.answer.1, pics := sys.pics.answer.2 } else none
  | .finish =>
    match sys.turn with
    | .handling vector => handleInterrupt inb vector sys
    | _ => none
  -- Nothing runs between the two parts of taking an interrupt, and C shifts a one by at most 30 places.
  | .mask irq =>
    if sys.turn ≠ .asking ∧ irq < 39 then some { sys with pics := sys.pics.write (picMaskIrq sys.pics.read irq) }
    else none
  | .unmask irq =>
    if sys.turn ≠ .asking ∧ irq < 39 then some { sys with pics := sys.pics.write (picUnmaskIrq sys.pics.read irq) }
    else none

/-- One step of the system. -/
def InterruptStep (sys : InterruptSystem) (event : InterruptEvent) (after : InterruptSystem) : Prop :=
  interruptStep inb sys event = some after

end

end MiraOS

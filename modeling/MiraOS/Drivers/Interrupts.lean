import MiraOS.Drivers.Keyboard
import MiraOS.Kernel.Process
import MiraOS.Machine.Run

/-! Hardware interrupts: the vectors of arch/x86_64/isr.c, the driver list of drivers/driver.c and the
drivers of the timer, the keyboard and the mouse. -/

namespace MiraOS

open Machine

/-- The static variables of the mouse driver. -/
structure Mouse where
  mouseX : Int32
  mouseY : Int32
  mouseButtons : UInt8
  mouseMoved : Bool
  mouseCycle : UInt8
  mousePacket0 : UInt8
  mousePacket1 : UInt8
  mousePacket2 : UInt8
  deriving DecidableEq

/-- What the drivers and the interrupt code keep, and what passes through the ports. -/
structure Devices where
  tickCount : UInt64
  kernel : Kernel
  keyboard : Keyboard
  mouse : Mouse
  -- How often the data port has been read, and how often by the keyboard driver.
  reads : Nat
  keyboardBytes : Nat
  -- What the interrupt controllers were sent, by port.
  sent : List (Nat × UInt8)

/-- A registered driver, with the part that interrupts use. -/
structure Driver where
  name : String
  id : Nat
  irq : Option (UInt8 → Devices → Devices)

/-- Limit of the driver list. -/
def maxDrivers : Nat := 32

/-- Count an interrupt of the timer. -/
def timerOnIrq (devices : Devices) : Devices := { devices with tickCount := devices.tickCount + 1 }

/-- The ticks counted so far. -/
def timerTicks (devices : Devices) : UInt64 := devices.tickCount

/-- The handler of the timer, which ignores the number of the interrupt. -/
def timerDriverIrq (_irq : UInt8) (devices : Devices) : Devices :=
  let devices := timerOnIrq devices
  { devices with kernel := schedulerTick devices.kernel }

/-- The driver of the timer. -/
def timerDriver : Driver := ⟨"pit", 1, some timerDriverIrq⟩

/-- The handler of the keyboard, which reads its byte from the port. -/
def keyboardDriverIrq (inb : Nat → UInt8) (_irq : UInt8) (devices : Devices) : Devices :=
  { devices with
    keyboard := keyboardOnIrq devices.keyboard (inb devices.reads)
    reads := devices.reads + 1
    keyboardBytes := devices.keyboardBytes + 1 }

/-- The driver of the keyboard. -/
def keyboardDriver (inb : Nat → UInt8) : Driver := ⟨"ps2kbd", 2, some (keyboardDriverIrq inb)⟩

/-- What the last byte of a packet does to the pointer. -/
def mouseReport (mouse : Mouse) : Mouse :=
  let dx := mouse.mousePacket1.toInt8
  let dy := mouse.mousePacket2.toInt8
  -- Two bits of the first byte say that a movement is negative; its upper half is then set.
  let dx := if mouse.mousePacket0 &&& 0x10 ≠ 0 then dx ||| 0xF0 else dx
  let dy := if mouse.mousePacket0 &&& 0x20 ≠ 0 then dy ||| 0xF0 else dy
  let mouseX := mouse.mouseX + dx.toInt32
  let mouseY := mouse.mouseY - dy.toInt32
  { mouse with
    -- The pointer stops at the left and upper edge only.
    mouseX := if mouseX < 0 then 0 else mouseX
    mouseY := if mouseY < 0 then 0 else mouseY
    mouseButtons := mouse.mousePacket0 &&& 0x07
    mouseMoved := true }

/-- The mouse after a byte of its packet. -/
def mouseByte (mouse : Mouse) (byte : UInt8) : Mouse :=
  if mouse.mouseCycle = 0 then
    -- The first byte of a packet has this bit; others are skipped.
    { mouse with
      mousePacket0 := byte
      mouseCycle := if byte &&& 0x08 ≠ 0 then mouse.mouseCycle + 1 else mouse.mouseCycle }
  else if mouse.mouseCycle = 1 then
    { mouse with mousePacket1 := byte, mouseCycle := mouse.mouseCycle + 1 }
  else mouseReport { mouse with mousePacket2 := byte, mouseCycle := 0 }

/-- The handler of the mouse, which reads the port in each of the three places of a packet. -/
def mouseIrqHandler (inb : Nat → UInt8) (_irq : UInt8) (devices : Devices) : Devices :=
  if devices.mouse.mouseCycle ≤ 2 then
    { devices with
      mouse := mouseByte devices.mouse (inb devices.reads)
      reads := devices.reads + 1 }
  else devices

/-- The driver of the mouse. -/
def mouseDriver (inb : Nat → UInt8) : Driver := ⟨"PS/2 Mouse", 4, some (mouseIrqHandler inb)⟩

/-- The driver of the screen, without a handler. -/
def fbDriver : Driver := ⟨"fb", 3, none⟩

/-- The driver of the disk, without a handler. -/
def ataDrv : Driver := ⟨"ATA", 5, none⟩

/-- Enter a driver, unless the list is full. -/
def driverRegister (driverList : List Driver) (drv : Driver) : List Driver :=
  if maxDrivers ≤ driverList.length then driverList else driverList ++ [drv]

/-- The drivers in the order in which they are linked. -/
def linkedDrivers (inb : Nat → UInt8) : List Driver :=
  [timerDriver, keyboardDriver inb, fbDriver, mouseDriver inb, ataDrv]

/-- The driver list after the start of the subsystem. -/
def driverSubsystemInit (drivers : List Driver) : List Driver := drivers.foldl driverRegister []

/-- Every driver with a handler gets every interrupt. -/
def driverDispatchIrq (driverList : List Driver) (irq : UInt8) (devices : Devices) : Devices :=
  driverList.foldl
    (fun devices drv =>
      match drv.irq with
      | some handler => handler irq devices
      | none => devices)
    devices

/-- Tell the interrupt controllers that an interrupt is done. -/
def driversPicSendEoi (irq : UInt8) (devices : Devices) : Devices :=
  -- The upper eight lines hang on the second controller, which is told first.
  let devices :=
    if 8 ≤ irq then { devices with sent := devices.sent ++ [(0xA0, 0x20)] } else devices
  { devices with sent := devices.sent ++ [(0x20, 0x20)] }

/-- The table of handlers registered for single vectors. -/
abbrev IsrHandlers := Nat → Option (Devices → Devices)

/-- What an interrupt or an exception with this vector does. -/
def isrHandler (handlers : IsrHandlers) (driverList : List Driver) (intNo : Nat)
    (devices : Devices) : Except Halt Devices :=
  if intNo < 32 then
    -- An exception ends in a panic, with a message of its own for a page fault.
    if intNo = 14 then .error (.panic "page fault") else .error (.panic "cpu exception")
  else if 256 ≤ intNo then .error .outOfBounds
  else
    let devices :=
      -- A handler of the vector comes first, the driver list only without one.
      match handlers intNo with
      | some handler => handler devices
      | none =>
        if intNo < 48 then driverDispatchIrq driverList (UInt8.ofNat (intNo - 32)) devices
        else devices
    .ok (if intNo < 48 then driversPicSendEoi (UInt8.ofNat (intNo - 32)) devices else devices)

/-- Interrupts one after another. -/
def interruptRun (handlers : IsrHandlers) (driverList : List Driver) :
    Devices → List Nat → Except Halt Devices
  | devices, [] => .ok devices
  | devices, intNo :: rest => do
    let devices ← isrHandler handlers driverList intNo devices
    interruptRun handlers driverList devices rest

/-- No handler is registered for a single vector. -/
def noHandlers : IsrHandlers := fun _ => none

/-- The devices after the initialisation of their drivers. -/
def devicesStart (kernel : Kernel) (kbdBuffer : Nat → UInt8) (packet : UInt8 × UInt8 × UInt8)
    (reads : Nat) : Devices where
  tickCount := 0
  kernel := kernel
  keyboard := keyboardInit kbdBuffer
  -- The bytes of an old packet stay.
  mouse := ⟨0, 0, 0, false, 0, packet.1, packet.2.1, packet.2.2⟩
  reads := reads
  keyboardBytes := 0
  sent := []

end MiraOS

import Mathlib.Order.Interval.Finset.Nat
import MiraOS.Machine.Bytes
import MiraOS.Machine.Latches
import MiraOS.Machine.Traced
import MiraOS.Machine.Words

/-! The disk of drivers/storage/ata.c: which sectors its commands address. -/

namespace MiraOS

open Machine

/-- The first port of the disk, and its registers behind it. -/
def ataPrimaryIo : Nat := 0x1F0
def ataRegData : Nat := 0x00
def ataRegSeccount : Nat := 0x02
def ataRegLbaLo : Nat := 0x03
def ataRegLbaMid : Nat := 0x04
def ataRegLbaHi : Nat := 0x05
def ataRegDrive : Nat := 0x06
-- The same port has the status when it is read, and takes the command when it is written.
def ataRegStatus : Nat := 0x07
def ataRegCommand : Nat := 0x07

/-- The commands. -/
def ataCmdReadPio : UInt8 := 0x20
def ataCmdWritePio : UInt8 := 0x30

/-- The bits of the status. -/
def ataSrBsy : UInt8 := 0x80
def ataSrDrq : UInt8 := 0x08
def ataSrErr : UInt8 := 0x01

/-- An access to a port. -/
inductive PortAccess where
  | inb (port : Nat)
  | inw (port : Nat)
  | outb (port : Nat) (value : UInt8)
  | outw (port : Nat) (value : UInt16)
  deriving DecidableEq

/-- What the disk answers to the reads of bytes and of words, counted from the first one on. -/
structure DiskPorts where
  inb : Nat → UInt8
  inw : Nat → UInt16

/-- Memory, and how often bytes and words have been read from the disk. -/
structure DiskIo where
  mem : Memory
  byteReads : Nat
  wordReads : Nat

/-- Write a byte or a word to a port. -/
def outb (port : Nat) (value : UInt8) : Traced DiskIo PortAccess Unit := .emit (.outb port value)
def outw (port : Nat) (value : UInt16) : Traced DiskIo PortAccess Unit := .emit (.outw port value)

/-- Select the drive and the sectors, and send the command. -/
def ataSelect (command : UInt8) (lba count : UInt32) : Traced DiskIo PortAccess Unit := do
  outb (ataPrimaryIo + ataRegDrive) ((0xE0 : UInt32) ||| (lba >>> 24 &&& 0x0F)).toUInt8
  outb (ataPrimaryIo + ataRegSeccount) count.toUInt8
  outb (ataPrimaryIo + ataRegLbaLo) (lba &&& 0xFF).toUInt8
  outb (ataPrimaryIo + ataRegLbaMid) (lba >>> 8 &&& 0xFF).toUInt8
  outb (ataPrimaryIo + ataRegLbaHi) (lba >>> 16 &&& 0xFF).toUInt8
  outb (ataPrimaryIo + ataRegCommand) command

/-- Take a word out of memory for the disk. -/
def ataWriteWord (address : Nat) : Traced DiskIo PortAccess Unit := do
  let io ← Traced.look
  outw (ataPrimaryIo + ataRegData) (UInt16.ofNat (readLE io.mem address 2))

section

variable (ports : DiskPorts)

/-- Read a byte or a word from a port. -/
def inb (port : Nat) : Traced DiskIo PortAccess UInt8 := fun io =>
  ([.inb port], .ok (ports.inb io.byteReads, { io with byteReads := io.byteReads + 1 }))

def inw (port : Nat) : Traced DiskIo PortAccess UInt16 := fun io =>
  ([.inw port], .ok (ports.inw io.wordReads, { io with wordReads := io.wordReads + 1 }))

/-- The loop that reads the status for as long as it says to wait. -/
def ataWait (busy : UInt8 → Bool) : Nat → Traced DiskIo PortAccess Unit
  | 0 => .stop .outOfFuel
  | fuel + 1 => do
    let status ← inb ports (ataPrimaryIo + ataRegStatus)
    if busy status then ataWait busy fuel else pure ()

/-- Wait until the disk is not busy any more. -/
def ataWaitReady (fuel : Nat) : Traced DiskIo PortAccess Unit := ataWait ports (· &&& ataSrBsy ≠ 0) fuel

/-- Wait until the disk asks for data. -/
def ataWaitDrq (fuel : Nat) : Traced DiskIo PortAccess Unit := ataWait ports (· &&& ataSrDrq = 0) fuel

/-- Put a word from the disk into memory. -/
def ataReadWord (address : Nat) : Traced DiskIo PortAccess Unit := do
  let value ← inw ports (ataPrimaryIo + ataRegData)
  Traced.change fun io => { io with mem := writeLE io.mem address 2 value.toNat }

/-- Move the words of all sectors, and look at the status behind them. -/
def ataMove (word : Nat → Traced DiskIo PortAccess Unit) (fuel buffer : Nat) (count : UInt32) :
    Traced DiskIo PortAccess Bool := do
  Traced.eachFrom (fun _ i => do
    ataWaitDrq ports fuel
    -- Where a sector starts in the buffer is a product of 32 bits.
    let start := buffer + (UInt32.ofNat i * 512).toNat
    Traced.eachFrom (fun _ j => word (start + 2 * j)) 0 (List.range 256)) 0 (List.range count.toNat)
  let status ← inb ports (ataPrimaryIo + ataRegStatus)
  return status &&& ataSrErr = 0

/-- Move sectors with a command; a null pointer for the buffer is zero. -/
def ataTransfer (command : UInt8) (word : Nat → Traced DiskIo PortAccess Unit) (fuel : Nat) (lba : UInt32)
    (buffer : Nat) (count : UInt32) : Traced DiskIo PortAccess Bool := do
  if count = 0 ∨ buffer = 0 then return false
  ataWaitReady ports fuel
  ataSelect command lba count
  ataMove ports word fuel buffer count

/-- Read sectors. -/
def ataReadSectors (fuel : Nat) (lba : UInt32) (buffer : Nat) (count : UInt32) : Traced DiskIo PortAccess Bool :=
  ataTransfer ports ataCmdReadPio (ataReadWord ports) fuel lba buffer count

/-- Write sectors. -/
def ataWriteSectors (fuel : Nat) (lba : UInt32) (buffer : Nat) (count : UInt32) : Traced DiskIo PortAccess Bool :=
  ataTransfer ports ataCmdWritePio ataWriteWord fuel lba buffer count

end

/-- The registers of the disk that say which sectors a command is about. -/
structure AtaRegisters where
  drive : UInt8
  seccount : UInt8
  lbaLo : UInt8
  lbaMid : UInt8
  lbaHi : UInt8
  deriving DecidableEq

/-- The registers after an access. -/
def AtaRegisters.latch (registers : AtaRegisters) : PortAccess → AtaRegisters
  | .outb port value =>
    if port = ataPrimaryIo + ataRegDrive then { registers with drive := value }
    else if port = ataPrimaryIo + ataRegSeccount then { registers with seccount := value }
    else if port = ataPrimaryIo + ataRegLbaLo then { registers with lbaLo := value }
    else if port = ataPrimaryIo + ataRegLbaMid then { registers with lbaMid := value }
    else if port = ataPrimaryIo + ataRegLbaHi then { registers with lbaHi := value }
    else registers
  | _ => registers

/-- The command that an access sends. -/
def commandOf : PortAccess → Option UInt8
  | .outb port value => if port = ataPrimaryIo + ataRegCommand then some value else none
  | _ => none

/-- The first sector: a number of 28 bits, of which the drive register has the highest four. -/
def AtaRegisters.lba (registers : AtaRegisters) : Nat :=
  registers.lbaLo.toNat + 2 ^ 8 * registers.lbaMid.toNat + 2 ^ 16 * registers.lbaHi.toNat +
    2 ^ 24 * (registers.drive &&& 0x0F).toNat

/-- The number of sectors, which is never zero. -/
def AtaRegisters.count (registers : AtaRegisters) : Nat :=
  if registers.seccount = 0 then 256 else registers.seccount.toNat

/-- The sectors that a command is about. -/
def AtaRegisters.sectors (registers : AtaRegisters) : Finset Nat :=
  Finset.Ico registers.lba (registers.lba + registers.count)

/-- The registers select sectors by their numbers, and exactly these. -/
structure AtaRegisters.Address (registers : AtaRegisters) (lba count : Nat) : Prop where
  byNumber : registers.drive &&& 0x40 ≠ 0
  same : registers.sectors = Finset.Ico lba (lba + count)

/-- The registers that are written for a request. -/
def requested (lba count : UInt32) : AtaRegisters where
  drive := ((0xE0 : UInt32) ||| (lba >>> 24 &&& 0x0F)).toUInt8
  seccount := count.toUInt8
  lbaLo := (lba &&& 0xFF).toUInt8
  lbaMid := (lba >>> 8 &&& 0xFF).toUInt8
  lbaHi := (lba >>> 16 &&& 0xFF).toUInt8

/-- The four highest bits of an address of 28 bits are kept in the drive register, which selects by numbers. -/
theorem driveRegister_eq {high : UInt32} (few : high.toNat < 16) :
    ((0xE0 ||| high).toUInt8 &&& 0x0F).toNat = high.toNat ∧ (0xE0 ||| high).toUInt8 &&& 0x40 ≠ 0 := by
  -- The four high bits of the address have sixteen values.
  have every : ∀ k < 16, ((0xE0 ||| UInt32.ofNat k).toUInt8 &&& 0x0F).toNat = k ∧
      (0xE0 ||| UInt32.ofNat k).toUInt8 &&& 0x40 ≠ 0 := by
    decide
  have here := every high.toNat few
  rwa [UInt32.ofNat_toNat] at here

/-- A byte of an address. -/
theorem toNat_byte (word : UInt32) : (word &&& 0xFF).toUInt8.toNat = word.toNat % 256 := by
  rw [UInt32.toNat_toUInt8, UInt32.toNat_and]
  exact (Nat.mod_eq_of_lt (Nat.and_lt_two_pow _ (by decide))).trans (Nat.and_two_pow_sub_one_eq_mod _ 8)

/-- The registers for a request keep 28 bits of the first sector, and eight of the number of sectors. -/
theorem requested_eq (lba count : UInt32) :
    (requested lba count).lba = lba.toNat % 2 ^ 28 ∧
      (requested lba count).count = if count.toNat % 2 ^ 8 = 0 then 256 else count.toNat % 2 ^ 8 := by
  constructor
  · -- The drive register has four bits for the rest of the number, so that only 28 of its bits are sent.
    have word := lba.toNat_lt
    have shift : ∀ bits : UInt32, bits.toNat < 32 → (lba >>> bits).toNat = lba.toNat / 2 ^ bits.toNat := by
      intro bits few
      rw [UInt32.toNat_shiftRight, Nat.mod_eq_of_lt few, Nat.shiftRight_eq_div_pow]
    have high : (lba >>> 24 &&& 0x0F).toNat = lba.toNat / 2 ^ 24 % 16 := by
      rw [UInt32.toNat_and, shift 24 (by decide)]
      exact Nat.and_two_pow_sub_one_eq_mod _ 4
    have drive := (driveRegister_eq (show (lba >>> 24 &&& 0x0F).toNat < 16 by omega)).1
    simp only [AtaRegisters.lba, requested, toNat_byte]
    rw [drive, high, shift 8 (by decide), shift 16 (by decide), show (8 : UInt32).toNat = 8 from rfl,
      show (16 : UInt32).toNat = 16 from rfl]
    omega
  · -- A count of zero in the register stands for 256 sectors.
    simp only [AtaRegisters.count, requested, ← UInt8.toNat_inj, UInt32.toNat_toUInt8]
    rfl

/-- A request that the registers have room for. -/
def Encodable (lba count : Nat) : Prop := ∃ registers : AtaRegisters, registers.Address lba count

/-- A part of the driver that writes no register and sends no command. -/
abbrev KeepsRegisters {α : Type} (program : Traced DiskIo PortAccess α) : Prop :=
  Logs (Every (Silent AtaRegisters.latch commandOf)) program

/-- The commands in a log, each with the registers it finds. -/
def commandsSent (registers : AtaRegisters) (log : List PortAccess) : List (UInt8 × AtaRegisters) :=
  issued AtaRegisters.latch commandOf registers log

/-- Every command that is sent is for the sectors of the request, and none is where no registers could say these. -/
def AddressesRequest (run : Nat → Traced DiskIo PortAccess Bool) (registers : AtaRegisters) (io : DiskIo)
    (lba count : UInt32) : Prop :=
  (∀ fuel, ∀ sent ∈ commandsSent registers (run fuel io).1, sent.2.Address lba.toNat count.toNat) ∧
    (¬ Encodable lba.toNat count.toNat → ∀ fuel, commandsSent registers (run fuel io).1 = [])

/-- The disk is busy at every read of its status. -/
def StaysBusy (ports : DiskPorts) (io : DiskIo) : Prop :=
  ∀ read, io.byteReads ≤ read → ports.inb read &&& ataSrBsy ≠ 0

/-- The requests whose commands are for their sectors: those without a command, since there is nothing to move or the
disk stays busy, and those of at most 256 sectors from an address of 28 bits on. -/
def RequestFits (ports : DiskPorts) (io : DiskIo) (lba : UInt32) (buffer : Nat) (count : UInt32) : Prop :=
  (count = 0 ∨ buffer = 0) ∨ StaysBusy ports io ∨ lba.toNat < 2 ^ 28 ∧ count.toNat ≤ 256

/-- There is always a sector, and never more than 256, from an address of 28 bits on. -/
theorem AtaRegisters.bounds (registers : AtaRegisters) :
    registers.lba < 2 ^ 28 ∧ 0 < registers.count ∧ registers.count ≤ 256 := by
  -- Every part is a byte, and the drive register gives four bits more.
  have lo := registers.lbaLo.toNat_lt
  have mid := registers.lbaMid.toNat_lt
  have hi := registers.lbaHi.toNat_lt
  have high : (registers.drive &&& 0x0F).toNat < 16 := by
    rw [UInt8.toNat_and]
    exact Nat.lt_of_le_of_lt Nat.and_le_right (by decide)
  have number := registers.seccount.toNat_lt
  refine ⟨?_, ?_⟩
  · rw [AtaRegisters.lba]
    omega
  · rw [AtaRegisters.count]
    split_ifs with zero
    · decide
    · have some : registers.seccount.toNat ≠ 0 := fun none => zero (UInt8.toNat_inj.mp none)
      omega

/-- Registers are about the sectors from one on only if they have it and their number. -/
theorem AtaRegisters.sectors_eq_iff (registers : AtaRegisters) {lba count : Nat} :
    registers.sectors = Finset.Ico lba (lba + count) ↔ registers.lba = lba ∧ registers.count = count := by
  -- As no count is zero, the interval determines its two ends.
  have some := registers.bounds.2.1
  rw [AtaRegisters.sectors]
  constructor
  · intro same
    have inside := (Finset.Ico_subset_Ico_iff (Nat.lt_add_of_pos_right some)).mp same.subset
    have around := (Finset.Ico_subset_Ico_iff (show lba < lba + count by omega)).mp same.superset
    omega
  · rintro ⟨rfl, rfl⟩
    rfl

/-- The registers for a request address it just when it is short enough and starts early enough. -/
theorem requested_address_iff (lba count : UInt32) :
    -- Both registers have the request reduced to their bits, and say it in full when nothing is cut off.
    (requested lba count).Address lba.toNat count.toNat ↔
      lba.toNat < 2 ^ 28 ∧ 1 ≤ count.toNat ∧ count.toNat ≤ 256 := by
  obtain ⟨first, number⟩ := requested_eq lba count
  constructor
  · rintro ⟨-, same⟩
    obtain ⟨start, length⟩ := (requested lba count).sectors_eq_iff.mp same
    rw [first] at start
    rw [number] at length
    split_ifs at length
    · omega
    · omega
  · rintro ⟨low, some, short⟩
    -- The drive register keeps its upper half for any four bits of the number.
    have few : (lba >>> 24 &&& 0x0F).toNat < 16 := by
      rw [UInt32.toNat_and]
      exact Nat.lt_of_le_of_lt Nat.and_le_right (by decide)
    refine ⟨(driveRegister_eq few).2, (requested lba count).sectors_eq_iff.mpr ⟨?_, ?_⟩⟩
    · rw [first, Nat.mod_eq_of_lt low]
    · rw [number]
      split_ifs
      · omega
      · omega

/-- The registers have room for requests of at most 256 sectors from an address of 28 bits on, and for no others. -/
theorem encodable_iff (lba count : Nat) : Encodable lba count ↔ lba < 2 ^ 28 ∧ 1 ≤ count ∧ count ≤ 256 := by
  constructor
  · -- Registers that select the sectors bound them by what they can say.
    rintro ⟨registers, -, same⟩
    obtain ⟨first, some, short⟩ := registers.bounds
    obtain ⟨rfl, rfl⟩ := registers.sectors_eq_iff.mp same
    exact ⟨first, some, short⟩
  · -- In the other direction the driver's own registers do.
    rintro ⟨low, some, short⟩
    have word : (UInt32.ofNat lba).toNat = lba := UInt32.toNat_ofNat_of_lt (show lba < 2 ^ 32 by omega)
    have number : (UInt32.ofNat count).toNat = count := UInt32.toNat_ofNat_of_lt (show count < 2 ^ 32 by omega)
    have address := requested_address_iff (UInt32.ofNat lba) (UInt32.ofNat count)
    rw [word, number] at address
    exact ⟨_, address.mpr ⟨low, some, short⟩⟩

section

variable {ports : DiskPorts}

/-- Reading a port writes no register. -/
theorem inb_silent (port : Nat) : KeepsRegisters (inb ports port) := by
  -- Reading the status port writes no register of the controller.
  intro io access among
  rw [List.mem_singleton.mp among]
  exact ⟨rfl, fun _ => rfl⟩

/-- Putting a word into memory writes no register. -/
theorem ataReadWord_silent (address : Nat) : KeepsRegisters (ataReadWord ports address) := by
  refine Logs.bind (fun io access among => ?_) fun _ => Logs.change _
  rw [List.mem_singleton.mp among]
  exact ⟨rfl, fun _ => rfl⟩

/-- Taking a word out of memory writes the data only. -/
theorem ataWriteWord_silent (address : Nat) : KeepsRegisters (ataWriteWord address) := by
  refine Logs.bind Logs.look fun _ io access among => ?_
  rw [List.mem_singleton.mp among]
  exact ⟨rfl, fun _ => rfl⟩

/-- Waiting writes no register. -/
theorem ataWait_silent (busy : UInt8 → Bool) (fuel : Nat) :
    KeepsRegisters (ataWait ports busy fuel) := by
  -- Every turn reads the status and writes nothing.
  induction fuel with
  | zero => exact Logs.stop _
  | succ fuel ih =>
    refine Logs.bind (inb_silent _) fun status => ?_
    split_ifs
    · exact ih
    · exact Logs.pure ()

/-- Moving the words writes no register either. -/
theorem ataMove_silent {word : Nat → Traced DiskIo PortAccess Unit}
    (silent : ∀ address, KeepsRegisters (word address)) (fuel buffer : Nat) (count : UInt32) :
    KeepsRegisters (ataMove ports word fuel buffer count) := by
  refine Logs.bind (Logs.eachFrom fun _ i _ => ?_) fun _ => Logs.bind (inb_silent _) fun _ => Logs.pure _
  exact Logs.bind (ataWait_silent _ fuel) fun _ => Logs.eachFrom fun _ j _ => silent _

/-- One turn of waiting takes one read. -/
theorem ataWait_turn (busy : UInt8 → Bool) (fuel : Nat) (io : DiskIo) :
    (ataWait ports busy (fuel + 1) io).2 =
      if busy (ports.inb io.byteReads) then (ataWait ports busy fuel { io with byteReads := io.byteReads + 1 }).2
      else .ok ((), { io with byteReads := io.byteReads + 1 }) := by
  rw [ataWait, Traced.bind_ok (show (inb ports _ io).2 = .ok (_, _) from rfl)]
  -- A busy answer asks again, any other ends the wait.
  split_ifs
  · rfl
  · rfl

/-- Waiting ends, or runs out of fuel. -/
theorem ataWait_cases (busy : UInt8 → Bool) (fuel : Nat) (io : DiskIo) :
    (∃ after, (ataWait ports busy fuel io).2 = .ok ((), after)) ∨
      (ataWait ports busy fuel io).2 = .error .outOfFuel := by
  -- Every turn goes on or comes back, so that only the fuel can end the loop in between.
  induction fuel generalizing io with
  | zero => exact Or.inr rfl
  | succ fuel ih =>
    rw [ataWait_turn]
    split_ifs
    · exact ih _
    · exact Or.inl ⟨_, rfl⟩

/-- While every status says to wait, waiting runs out of fuel. -/
theorem ataWait_busy {busy : UInt8 → Bool} {io : DiskIo}
    (always : ∀ read, io.byteReads ≤ read → busy (ports.inb read) = true) (fuel : Nat) :
    (ataWait ports busy fuel io).2 = .error .outOfFuel := by
  -- Induction on the fuel: every answer of a drive that is always busy asks for one more.
  induction fuel generalizing io with
  | zero => rfl
  | succ fuel ih =>
    rw [ataWait_turn, if_pos (always _ (Nat.le_refl _))]
    exact ih fun read later => always read (Nat.le_of_succ_le later)

/-- Once a status does not say to wait, enough fuel ends the waiting. -/
theorem ataWait_goes {busy : UInt8 → Bool} {io : DiskIo} {read : Nat} (later : io.byteReads ≤ read)
    (free : busy (ports.inb read) ≠ true) : ∃ fuel after, (ataWait ports busy fuel io).2 = .ok ((), after) := by
  by_cases now : busy (ports.inb io.byteReads) = true
  · -- The status in question is a later one.
    have behind : io.byteReads < read := Nat.lt_of_le_of_ne later fun same => free (same ▸ now)
    obtain ⟨fuel, after, goes⟩ := @ataWait_goes busy { io with byteReads := io.byteReads + 1 } read behind free
    refine ⟨fuel + 1, after, ?_⟩
    rw [ataWait_turn, if_pos now]
    exact goes
  · refine ⟨1, { io with byteReads := io.byteReads + 1 }, ?_⟩
    rw [ataWait_turn, if_neg now]
termination_by read - io.byteReads

section

variable {command : UInt8} {word : Nat → Traced DiskIo PortAccess Unit} {fuel buffer : Nat} {lba count : UInt32}
  {io : DiskIo}

/-- A refused request sends nothing. -/
theorem ataTransfer_refused (refused : count = 0 ∨ buffer = 0) (registers : AtaRegisters) :
    commandsSent registers (ataTransfer ports command word fuel lba buffer count io).1 = [] := by
  rw [ataTransfer, if_pos refused]
  rfl

/-- While the disk is busy no command is sent. -/
theorem ataTransfer_waits (stopped : (ataWaitReady ports fuel io).2 = .error .outOfFuel) (registers : AtaRegisters) :
    commandsSent registers (ataTransfer ports command word fuel lba buffer count io).1 = [] := by
  rw [ataTransfer]
  -- A transfer of no sectors sends nothing, and any other stops at the first wait.
  split_ifs
  · rfl
  · rw [Traced.bind_error stopped]
    exact issued_silent (ataWait_silent _ fuel io) registers

/-- Otherwise the command is sent, with the registers for the request. -/
theorem ataTransfer_sends {after : DiskIo}
    (silent : ∀ address, KeepsRegisters (word address)) (given : ¬ (count = 0 ∨ buffer = 0))
    (ready : (ataWaitReady ports fuel io).2 = .ok ((), after))
    (registers : AtaRegisters) :
    commandsSent registers (ataTransfer ports command word fuel lba buffer count io).1 =
      [(command, requested lba count)] := by
  have selected : (ataSelect command lba count after).2 = .ok ((), after) := rfl
  -- What is in front of the six writes and behind them writes no register.
  have front : ∀ access ∈ (ataWaitReady ports fuel io).1, Silent AtaRegisters.latch commandOf access :=
    ataWait_silent _ fuel io
  have back := @ataMove_silent ports word silent fuel buffer count after
  rw [ataTransfer, if_neg given, Traced.bind_ok ready, Traced.bind_ok selected, commandsSent]
  dsimp only
  rw [issued_between front back]
  rfl

/-- Of every request that fits the commands are for its sectors, and of no other. -/
theorem ataTransfer_addresses_iff
    (silent : ∀ address, KeepsRegisters (word address)) (registers : AtaRegisters) :
    AddressesRequest (fun fuel => ataTransfer ports command word fuel lba buffer count) registers io lba count ↔
      RequestFits ports io lba buffer count := by
  by_cases refused : count = 0 ∨ buffer = 0
  · refine iff_of_true ⟨fun fuel sent among => ?_, fun _ _ => ataTransfer_refused refused registers⟩ (Or.inl refused)
    rw [ataTransfer_refused refused] at among
    exact absurd among List.not_mem_nil
  rw [RequestFits, or_iff_right refused]
  by_cases stays : StaysBusy ports io
  · have none := fun fuel => @ataTransfer_waits ports command word fuel buffer lba count io
      (ataWait_busy (fun read later => by simpa using stays read later) fuel) registers
    refine iff_of_true ⟨fun fuel sent among => ?_, fun _ => none⟩ (Or.inl stays)
    rw [none] at among
    exact absurd among List.not_mem_nil
  · rw [or_iff_right stays]
    have some : 1 ≤ count.toNat := by
      have nonzero : count.toNat ≠ 0 := fun zero => refused (Or.inl (UInt32.toNat_inj.mp zero))
      omega
    have fits := requested_address_iff lba count
    have encodable := encodable_iff lba.toNat count.toNat
    constructor
    · rintro ⟨every, -⟩
      -- The disk is ready at some time, and then a command is sent.
      simp only [StaysBusy, not_forall] at stays
      obtain ⟨read, later, free⟩ := stays
      obtain ⟨fuel, after, ready⟩ := @ataWait_goes ports (· &&& ataSrBsy ≠ 0) io read later (by simpa using free)
      have sent := @ataTransfer_sends ports command word fuel buffer lba count io after silent refused ready registers
      have addressed := every fuel (command, requested lba count) (by rw [sent]; exact List.mem_cons_self)
      obtain ⟨low, -, short⟩ := fits.mp addressed
      exact ⟨low, short⟩
    · rintro ⟨low, short⟩
      refine ⟨fun fuel sent among => ?_, fun not => absurd (encodable.mpr ⟨low, some, short⟩) not⟩
      rcases @ataWait_cases ports (· &&& ataSrBsy ≠ 0) fuel io with ⟨after, ready⟩ | stopped
      · rw [ataTransfer_sends silent refused ready] at among
        rw [List.mem_singleton.mp among]
        exact fits.mpr ⟨low, some, short⟩
      · rw [ataTransfer_waits stopped] at among
        exact absurd among List.not_mem_nil

end

/--
Reading and writing sectors address just those of the request exactly when there is nothing to move, the disk stays
busy, or at most 256 sectors are asked for from an address of 28 bits on.

Of other addresses the registers have the lowest 28 bits, and of other numbers the lowest eight.
-/
theorem ata_addresses_iff (ports : DiskPorts) (registers : AtaRegisters) (io : DiskIo) (lba : UInt32) (buffer : Nat)
    (count : UInt32) :
    (AddressesRequest (fun fuel => ataReadSectors ports fuel lba buffer count) registers io lba count ↔
        RequestFits ports io lba buffer count) ∧
      (AddressesRequest (fun fuel => ataWriteSectors ports fuel lba buffer count) registers io lba count ↔
        RequestFits ports io lba buffer count) :=
  ⟨ataTransfer_addresses_iff ataReadWord_silent registers, ataTransfer_addresses_iff ataWriteWord_silent registers⟩

end

/-- A disk that is always ready, and asks for data at once. -/
def readyDisk : DiskPorts := ⟨fun _ => 0x08, fun _ => 0⟩

/-- Of 257 sectors from the first one on only that one is asked for. -/
theorem long_request_misaddressed :
    (commandsSent ⟨0, 0, 0, 0, 0⟩ (ataReadSectors readyDisk 1 0 0x100000 257 ⟨fun _ => 0, 0, 0⟩).1).map
        (fun sent => sent.2.sectors) = [{0}] ∧
      ¬ ∀ (ports : DiskPorts) (registers : AtaRegisters) (io : DiskIo) (lba : UInt32) (buffer : Nat) (count : UInt32),
        1 ≤ count → AddressesRequest (fun fuel => ataReadSectors ports fuel lba buffer count) registers io lba count ∧
          AddressesRequest (fun fuel => ataWriteSectors ports fuel lba buffer count) registers io lba count := by
  constructor
  · -- 257 sectors are sent as a count of one.
    rw [ataReadSectors, ataTransfer_sends ataReadWord_silent (by decide) rfl]
    decide
  · intro claim
    -- The request is neither refused, nor does the disk stay busy, nor does the count fit.
    have addressed := (claim readyDisk ⟨0, 0, 0, 0, 0⟩ ⟨fun _ => 0, 0, 0⟩ 0 0x100000 257 (by decide)).1
    rcases (ataTransfer_addresses_iff ataReadWord_silent _).mp addressed with refused | stays | fits
    · exact absurd refused (by decide)
    · exact stays 0 (Nat.le_refl 0) (by decide)
    · exact absurd fits.2 (by decide)

end MiraOS

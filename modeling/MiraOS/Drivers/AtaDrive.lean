import MiraOS.Drivers.Ata
import MiraOS.Machine.Served

/-! The words that drivers/storage/ata.c moves to and from a drive that answers its accesses. -/

namespace MiraOS

open Machine

/-- What a drive does: nothing, or a transfer of words of which some are done. -/
inductive DriveTransfer where
  | idle
  | reading (done : Nat)
  | writing (done : Nat)
  deriving DecidableEq

/-- A drive: its registers, the words of its sectors, what it does, and whether it has asked for the words of the
sector that comes next. -/
structure AtaDrive where
  registers : AtaRegisters
  sectors : Nat → Nat → UInt16
  transfer : DriveTransfer
  asked : Bool

/-- A drive, and how often its status and its words have been read. -/
structure DriveSide where
  bytes : Nat
  words : Nat
  drive : AtaDrive

/-- The word of a transfer that comes after some others. -/
def AtaDrive.word (drive : AtaDrive) (done : Nat) : UInt16 :=
  drive.sectors (drive.registers.lba + done / 256) (done % 256)

/-- Another word of a transfer is done; behind a whole sector the drive asks again. -/
def AtaDrive.moved (drive : AtaDrive) (transfer : Nat → DriveTransfer) (done : Nat) : AtaDrive :=
  { drive with
    transfer := if done + 1 = 256 * drive.registers.count then .idle else transfer (done + 1)
    asked := decide ((done + 1) % 256 ≠ 0) }

/-- Keep a word of a transfer. -/
def AtaDrive.store (drive : AtaDrive) (done : Nat) (value : UInt16) : AtaDrive :=
  { drive with
    sectors := fun sector place =>
      if sector = drive.registers.lba + done / 256 ∧ place = done % 256 then value else drive.sectors sector place }

/-- The drive after a byte was written to a register, or a command was sent. -/
def AtaDrive.receive (drive : AtaDrive) (port : Nat) (value : UInt8) : AtaDrive :=
  if port = ataPrimaryIo + ataRegCommand then
    { drive with
      transfer :=
        if value = ataCmdReadPio then .reading 0 else if value = ataCmdWritePio then .writing 0 else .idle
      asked := false }
  else { drive with registers := drive.registers.latch (.outb port value) }

/-- The drive after an access, unless a drive does not answer so. -/
def driveStep (ports : DiskPorts) (side : DriveSide) : PortAccess → Option DriveSide
  | .inb _ =>
    let status := ports.inb side.bytes
    if status &&& ataSrDrq = 0 then some { side with bytes := side.bytes + 1 }
    -- A drive asks for words only in a transfer, and not while it is busy.
    else if side.drive.transfer = .idle ∨ status &&& ataSrBsy ≠ 0 then none
    else some { side with bytes := side.bytes + 1, drive := { side.drive with asked := true } }
  | .inw _ =>
    match side.drive.transfer, side.drive.asked with
    | .reading done, true =>
      if ports.inw side.words = side.drive.word done then
        some { side with words := side.words + 1, drive := side.drive.moved .reading done }
      else none
    -- A word that was not asked for is anything.
    | _, _ => some { side with words := side.words + 1 }
  | .outb port value => some { side with drive := side.drive.receive port value }
  | .outw _ value =>
    match side.drive.transfer, side.drive.asked with
    | .writing done, true => some { side with drive := (side.drive.store done value).moved .writing done }
    -- A word that was not asked for is lost.
    | _, _ => some side

/-- The accesses that a drive answers. -/
def DriveAccepts (ports : DiskPorts) (side : DriveSide) (access : PortAccess) (after : DriveSide) : Prop :=
  driveStep ports side access = some after

/-- A request to the driver. -/
inductive AtaRequest where
  | read (lba : UInt32) (buffer : Nat) (count : UInt32)
  | write (lba : UInt32) (buffer : Nat) (count : UInt32)

/-- The call of a request. -/
def AtaRequest.call (ports : DiskPorts) (fuel : Nat) : AtaRequest → Traced DiskIo PortAccess Bool
  | .read lba buffer count => ataReadSectors ports fuel lba buffer count
  | .write lba buffer count => ataWriteSectors ports fuel lba buffer count

/-- Requests one after another, with what each of them returns. -/
def ataRequests (ports : DiskPorts) (fuel : Nat) : List AtaRequest → Traced DiskIo PortAccess (List Bool)
  | [] => pure []
  | request :: rest => do
    let done ← request.call ports fuel
    let others ← ataRequests ports fuel rest
    return done :: others

/-- Memory, and the words of the sectors. -/
structure Storage where
  mem : Memory
  sectors : Nat → Nat → UInt16

/-- Memory after words were put into a buffer. -/
def fetchWords (word : Nat → UInt16) (mem : Memory) (buffer : Nat) : Nat → Memory
  | 0 => mem
  | done + 1 => writeLE (fetchWords word mem buffer done) (buffer + 2 * done) 2 (word done).toNat

/-- A word of a buffer. -/
def bufferWord (mem : Memory) (buffer place : Nat) : UInt16 := UInt16.ofNat (readLE mem (buffer + 2 * place) 2)

/-- Sectors after words of a buffer were stored from a sector on. -/
def storeWords (mem : Memory) (buffer lba done : Nat) (sectors : Nat → Nat → UInt16) : Nat → Nat → UInt16 :=
  fun sector place =>
    if lba ≤ sector ∧ place < 256 ∧ 256 * (sector - lba) + place < done then
      bufferWord mem buffer (256 * (sector - lba) + place)
    else sectors sector place

/-- What a request is for: to copy whole sectors. -/
def AtaRequest.apply (storage : Storage) : AtaRequest → Storage
  | .read lba buffer count =>
    { storage with
      mem := fetchWords (fun place => storage.sectors (lba.toNat + place / 256) (place % 256)) storage.mem buffer
        (256 * count.toNat) }
  | .write lba buffer count =>
    { storage with sectors := storeWords storage.mem buffer lba.toNat (256 * count.toNat) storage.sectors }

/-- The requests that the registers have room for, with a buffer. -/
def AtaRequest.Fits : AtaRequest → Prop
  | .read lba buffer count | .write lba buffer count =>
    buffer ≠ 0 ∧ lba.toNat < 2 ^ 28 ∧ 1 ≤ count.toNat ∧ count.toNat ≤ 256

instance (request : AtaRequest) : Decidable request.Fits := by
  cases request <;> exact inferInstanceAs (Decidable (_ ∧ _ ∧ _ ∧ _))

/-- The driver and the drive have counted the same reads, memory is as given, and so is the drive. -/
structure InStep (mem : Memory) (drive : AtaDrive) (io : DiskIo) (side : DriveSide) : Prop where
  bytes : side.bytes = io.byteReads
  words : side.words = io.wordReads
  mem : io.mem = mem
  drive : side.drive = drive

section

variable {ports : DiskPorts} {mem : Memory} {drive : AtaDrive}

/-- Reading the status: the drive asks for words, or nothing happens. -/
theorem inb_serves (port : Nat) :
    Serviced (DriveAccepts ports) (inb ports port) (InStep mem drive) fun status io side =>
      (status &&& ataSrDrq = 0 ∧ InStep mem drive io side) ∨
        (status &&& ataSrDrq ≠ 0 ∧ drive.transfer ≠ .idle ∧ InStep mem { drive with asked := true } io side) := by
  -- A status byte without the flag says nothing of the drive; with it the drive must have something to move.
  refine Serviced.event (fun _ => .inb port) (fun _ => rfl) ?_
  intro io side status next final start goes step
  obtain ⟨bytes, words, memory, same⟩ := start
  obtain ⟨rfl, rfl⟩ := Prod.mk.inj (Except.ok.inj goes)
  rw [DriveAccepts, driveStep] at step
  simp only [bytes] at step
  split_ifs at step with quiet busy
  · obtain rfl := Option.some.inj step
    exact .inl ⟨quiet, rfl, words, memory, same⟩
  · obtain rfl := Option.some.inj step
    subst same
    exact .inr ⟨quiet, fun idle => busy (.inl idle), rfl, words, memory, rfl⟩

/-- A drive that does nothing is waited for without a change. -/
theorem ataWaitReady_serves (idle : drive.transfer = .idle) (fuel : Nat) :
    Serviced (DriveAccepts ports) (ataWaitReady ports fuel) (InStep mem drive) fun _ => InStep mem drive := by
  -- While the drive is idle, no status byte asks for data, however often it is read.
  rw [ataWaitReady]
  induction fuel with
  | zero => exact Serviced.stop
  | succ fuel ih =>
    refine (inb_serves _).bind fun status => ?_
    have same : ∀ io side, (status &&& ataSrDrq = 0 ∧ InStep mem drive io side) ∨
        (status &&& ataSrDrq ≠ 0 ∧ drive.transfer ≠ .idle ∧ InStep mem { drive with asked := true } io side) →
        InStep mem drive io side := by
      rintro io side (⟨-, step⟩ | ⟨-, some, -⟩)
      · exact step
      · exact absurd idle some
    split_ifs
    · exact ih.weaken same fun _ _ _ kept => kept
    · exact Serviced.pure same

/-- Waiting for a drive in a transfer ends when it asks for words. -/
theorem ataWaitDrq_serves (fuel : Nat) :
    Serviced (DriveAccepts ports) (ataWaitDrq ports fuel) (InStep mem drive) fun _ =>
      InStep mem { drive with asked := true } := by
  rw [ataWaitDrq]
  induction fuel with
  | zero => exact Serviced.stop
  | succ fuel ih =>
    refine (inb_serves _).bind fun status => ?_
    -- The loop goes on exactly while the drive does not ask.
    by_cases quiet : status &&& ataSrDrq = 0
    · rw [if_pos (by simpa using quiet)]
      apply ih.weaken _ fun _ _ _ kept => kept
      rintro io side (⟨-, step⟩ | ⟨asks, -⟩)
      · exact step
      · exact absurd quiet asks
    · rw [if_neg (by simpa using quiet)]
      apply Serviced.pure
      rintro io side (⟨none, -⟩ | ⟨-, -, step⟩)
      · exact absurd none quiet
      · exact step

/-- Writing to a port. -/
theorem outb_serves (port : Nat) (value : UInt8) :
    Serviced (DriveAccepts ports) (outb port value) (InStep mem drive) fun _ =>
      InStep mem (drive.receive port value) := by
  -- A write is one access, and the driver counts no read for it.
  refine Serviced.event (fun _ => .outb port value) (fun _ => rfl) ?_
  intro io side _ next final start goes step
  obtain ⟨bytes, words, memory, rfl⟩ := start
  obtain ⟨-, rfl⟩ := Prod.mk.inj (Except.ok.inj goes)
  obtain rfl := Option.some.inj step
  exact ⟨bytes, words, memory, rfl⟩

/-- The drive behind the six writes of a command. -/
def AtaDrive.commanded (drive : AtaDrive) (command : UInt8) (lba count : UInt32) : AtaDrive :=
  { drive with
    registers := requested lba count
    transfer := if command = ataCmdReadPio then .reading 0 else if command = ataCmdWritePio then .writing 0 else .idle
    asked := false }

/-- Sending a command. -/
theorem ataSelect_serves (command : UInt8) (lba count : UInt32) :
    Serviced (DriveAccepts ports) (ataSelect command lba count) (InStep mem drive) fun _ =>
      InStep mem (drive.commanded command lba count) := by
  -- The six register writes are served one after the other, and the last of them starts the transfer.
  rw [ataSelect]
  refine (outb_serves _ _).bind fun _ => (outb_serves _ _).bind fun _ => (outb_serves _ _).bind fun _ =>
    (outb_serves _ _).bind fun _ => (outb_serves _ _).bind fun _ => ?_
  exact (outb_serves _ _).weaken (fun _ _ start => start) fun _ _ _ kept => kept

/-- Moving the words of all sectors goes through memories and drives, one for each number of words that are done. -/
theorem ataMove_serves {word : Nat → Traced DiskIo PortAccess Unit} {buffer : Nat} {count : UInt32}
    {memAt : Nat → Memory} {driveAt : Nat → AtaDrive} (short : count.toNat ≤ 256)
    (step : ∀ done < 256 * count.toNat, Serviced (DriveAccepts ports) (word (buffer + 2 * done))
      (InStep (memAt done) { driveAt done with asked := true }) fun _ => InStep (memAt (done + 1)) (driveAt (done + 1)))
    (asked : ∀ done, (driveAt done).asked = decide (done % 256 ≠ 0))
    (ended : (driveAt (256 * count.toNat)).transfer = .idle) (fuel : Nat) :
    Serviced (DriveAccepts ports) (ataMove ports word fuel buffer count) (InStep (memAt 0) (driveAt 0)) fun _ =>
      InStep (memAt (256 * count.toNat)) (driveAt (256 * count.toNat)) := by
  rw [ataMove]
  have sectors : Serviced (DriveAccepts ports) (Traced.eachFrom (fun _ i => do
        ataWaitDrq ports fuel
        let start := buffer + (UInt32.ofNat i * 512).toNat
        Traced.eachFrom (fun _ j => word (start + 2 * j)) 0 (List.range 256)) 0 (List.range count.toNat))
      (InStep (memAt 0) (driveAt 0)) fun _ =>
        InStep (memAt (256 * count.toNat)) (driveAt (256 * count.toNat)) := by
    refine @Serviced.eachBelow _ _ _ _ _ _ _ (fun i => InStep (memAt (256 * i)) (driveAt (256 * i))) fun i low => ?_
    refine (ataWaitDrq_serves fuel).bind fun _ => ?_
    -- The product that says where the sector starts does not wrap.
    have start : buffer + (UInt32.ofNat i * 512).toNat = buffer + 2 * (256 * i) := by
      have number : (UInt32.ofNat i).toNat = i := UInt32.toNat_ofNat_of_lt (show i < 2 ^ 32 by omega)
      rw [UInt32.toNat_mul, number]
      show buffer + i * 512 % 2 ^ 32 = _
      omega
    rw [start]
    have words := @Serviced.eachBelow _ _ _ (DriveAccepts ports) (fun _ j => word (buffer + 2 * (256 * i) + 2 * j)) 256
      0 (fun j => InStep (memAt (256 * i + j)) { driveAt (256 * i + j) with asked := decide (j < 256) }) fun j few => by
        have turn := step (256 * i + j) (by omega)
        rw [show buffer + 2 * (256 * i) + 2 * j = buffer + 2 * (256 * i + j) by omega]
        refine turn.weaken (fun io side kept => ?_) fun _ io side kept => ?_
        · rwa [decide_eq_true few] at kept
        · -- The drive has asked for another word except behind the last one of the sector.
          have same : decide (j + 1 < 256) = (driveAt (256 * i + j + 1)).asked := by
            rw [asked]
            apply decide_eq_decide.mpr
            omega
          rw [same]
          exact kept
    refine words.weaken (fun io side kept => kept) fun _ io side kept => ?_
    have same : decide (256 < 256) = (driveAt (256 * i + 256)).asked := by
      rw [asked]
      apply decide_eq_decide.mpr
      omega
    rw [same] at kept
    exact kept
  refine sectors.bind fun _ => (inb_serves _).bind fun status => Serviced.pure ?_
  -- The drive is done, so it asks for no more words.
  rintro io side (⟨-, kept⟩ | ⟨-, some, -⟩)
  · exact kept
  · exact absurd ended some

/-- A word that the drive has asked for is the one of the sector. -/
theorem ataReadWord_serves {done : Nat} (reading : drive.transfer = .reading done) (asked : drive.asked = true)
    (address : Nat) :
    Serviced (DriveAccepts ports) (ataReadWord ports address) (InStep mem drive) fun _ =>
      InStep (writeLE mem address 2 (drive.word done).toNat) (drive.moved .reading done) := by
  -- The drive gives the word that is next, and only when it has asked.
  have read : Serviced (DriveAccepts ports) (inw ports (ataPrimaryIo + ataRegData)) (InStep mem drive)
      fun value io side => value = drive.word done ∧ InStep mem (drive.moved .reading done) io side := by
    refine Serviced.event (fun _ => .inw (ataPrimaryIo + ataRegData)) (fun _ => rfl) ?_
    intro io side value next final start goes step
    obtain ⟨bytes, words, memory, rfl⟩ := start
    obtain ⟨rfl, rfl⟩ := Prod.mk.inj (Except.ok.inj goes)
    rw [DriveAccepts, driveStep, reading, asked] at step
    simp only [words] at step
    split_ifs at step with same
    obtain rfl := Option.some.inj step
    exact ⟨same, bytes, rfl, memory, rfl⟩
  -- What is left of the turn is a store into memory.
  refine read.bind fun value => Serviced.change ?_
  rintro io side ⟨rfl, bytes, words, memory, same⟩
  exact ⟨bytes, words, by rw [memory], same⟩

/-- A word of memory goes to the place that the drive has asked it for. -/
theorem ataWriteWord_serves {done : Nat} (writing : drive.transfer = .writing done) (asked : drive.asked = true)
    (address : Nat) :
    Serviced (DriveAccepts ports) (ataWriteWord address) (InStep mem drive) fun _ =>
      InStep mem ((drive.store done (UInt16.ofNat (readLE mem address 2))).moved .writing done) := by
  -- The word to write is read from memory, which the access leaves alone.
  refine Serviced.look fun seen => ?_
  refine Serviced.event (fun _ => .outw (ataPrimaryIo + ataRegData) (UInt16.ofNat (readLE seen.mem address 2)))
    (fun _ => rfl) ?_
  intro io side _ next final start goes step
  obtain ⟨rfl, bytes, words, rfl, rfl⟩ := start
  obtain ⟨-, rfl⟩ := Prod.mk.inj (Except.ok.inj goes)
  rw [DriveAccepts, driveStep, writing, asked] at step
  obtain rfl := Option.some.inj step
  exact ⟨bytes, words, rfl, rfl⟩

/-- Storing another word. -/
theorem storeWords_succ (mem : Memory) (buffer lba done : Nat) (sectors : Nat → Nat → UInt16) :
    storeWords mem buffer lba (done + 1) sectors = fun sector place =>
      if sector = lba + done / 256 ∧ place = done % 256 then bufferWord mem buffer done
      else storeWords mem buffer lba done sectors sector place := by
  funext sector place
  rw [storeWords, storeWords]
  -- The new word is the one whose number is that of all words before it.
  by_cases here : sector = lba + done / 256 ∧ place = done % 256
  · have number : 256 * (sector - lba) + place = done := by omega
    rw [if_pos here, if_pos (by omega), number]
  · rw [if_neg here]
    by_cases early : lba ≤ sector ∧ place < 256 ∧ 256 * (sector - lba) + place < done
    · rw [if_pos early, if_pos (by omega)]
    · rw [if_neg early, if_neg (by omega)]

section

variable {lba count : UInt32} {buffer : Nat}

/-- The drive behind some words of a command, from the sectors that it had before. -/
def AtaDrive.progress (drive : AtaDrive) (lba count : UInt32) (transfer : Nat → DriveTransfer)
    (sectors : Nat → Nat → UInt16) (done : Nat) : AtaDrive :=
  { drive with
    registers := requested lba count
    sectors := sectors
    transfer := if done = 256 * count.toNat then .idle else transfer done
    asked := decide (done % 256 ≠ 0) }

/-- The registers of a request that fits say what it says. -/
theorem requested_of_fits (low : lba.toNat < 2 ^ 28) (some : 1 ≤ count.toNat) (short : count.toNat ≤ 256) :
    (requested lba count).lba = lba.toNat ∧ (requested lba count).count = count.toNat := by
  have address := (requested_address_iff lba count).mpr ⟨low, some, short⟩
  exact (requested lba count).sectors_eq_iff.mp address.same

/-- Reading whole sectors puts their words into the buffer. -/
theorem ataReadSectors_serves (idle : drive.transfer = .idle) (fits : (AtaRequest.read lba buffer count).Fits)
    (fuel : Nat) :
    Serviced (DriveAccepts ports) (ataReadSectors ports fuel lba buffer count) (InStep mem drive) fun _ =>
      InStep (fetchWords (fun place => drive.sectors (lba.toNat + place / 256) (place % 256)) mem buffer
          (256 * count.toNat))
        (drive.progress lba count .reading drive.sectors (256 * count.toNat)) := by
  obtain ⟨given, low, some, short⟩ := fits
  obtain ⟨first, number⟩ := requested_of_fits low some short
  have taken : ¬ (count = 0 ∨ buffer = 0) := by
    rintro (none | none)
    · rw [none] at some
      exact absurd some (by decide)
    · exact given none
  rw [ataReadSectors, ataTransfer, if_neg taken]
  refine (ataWaitReady_serves idle fuel).bind fun _ => (ataSelect_serves _ lba count).bind fun _ => ?_
  -- From here on the drive is described by the number of words that are done.
  have commanded : drive.commanded ataCmdReadPio lba count = drive.progress lba count .reading drive.sectors 0 := by
    rw [AtaDrive.commanded, AtaDrive.progress, if_pos rfl, if_neg (by omega)]
    rfl
  rw [commanded]
  refine @ataMove_serves ports _ _ _ (fetchWords _ mem buffer)
    (drive.progress lba count .reading drive.sectors) short (fun done early => ?_) (fun _ => rfl) (if_pos rfl) fuel
  have turn := @ataReadWord_serves ports (fetchWords
      (fun place => drive.sectors (lba.toNat + place / 256) (place % 256)) mem buffer done)
    { drive.progress lba count .reading drive.sectors done with asked := true } done (if_neg (by omega)) rfl
    (buffer + 2 * done)
  have next : AtaDrive.moved { drive.progress lba count .reading drive.sectors done with asked := true }
      .reading done = drive.progress lba count .reading drive.sectors (done + 1) := by
    rw [AtaDrive.moved, AtaDrive.progress, AtaDrive.progress, number]
  have word : AtaDrive.word { drive.progress lba count .reading drive.sectors done with asked := true } done =
      drive.sectors (lba.toNat + done / 256) (done % 256) := by
    rw [AtaDrive.word, AtaDrive.progress, first]
  rw [next, word] at turn
  exact turn

/-- Writing whole sectors stores the words of the buffer. -/
theorem ataWriteSectors_serves (idle : drive.transfer = .idle) (fits : (AtaRequest.write lba buffer count).Fits)
    (fuel : Nat) :
    Serviced (DriveAccepts ports) (ataWriteSectors ports fuel lba buffer count) (InStep mem drive) fun _ =>
      InStep mem (drive.progress lba count .writing
        (storeWords mem buffer lba.toNat (256 * count.toNat) drive.sectors) (256 * count.toNat)) := by
  obtain ⟨given, low, some, short⟩ := fits
  obtain ⟨first, number⟩ := requested_of_fits low some short
  have taken : ¬ (count = 0 ∨ buffer = 0) := by
    rintro (none | none)
    · rw [none] at some
      exact absurd some (by decide)
    · exact given none
  rw [ataWriteSectors, ataTransfer, if_neg taken]
  refine (ataWaitReady_serves idle fuel).bind fun _ => (ataSelect_serves _ lba count).bind fun _ => ?_
  -- Before the first word the sectors are as they were.
  have untouched : storeWords mem buffer lba.toNat 0 drive.sectors = drive.sectors := by
    funext sector place
    exact if_neg (by omega)
  have commanded : drive.commanded ataCmdWritePio lba count =
      drive.progress lba count .writing (storeWords mem buffer lba.toNat 0 drive.sectors) 0 := by
    rw [untouched, AtaDrive.commanded, AtaDrive.progress, if_neg (by decide), if_pos rfl, if_neg (by omega)]
    rfl
  rw [commanded]
  refine @ataMove_serves ports _ _ _ (fun _ => mem)
    (fun done => drive.progress lba count .writing (storeWords mem buffer lba.toNat done drive.sectors) done) short
    (fun done early => ?_) (fun _ => rfl) (if_pos rfl) fuel
  -- One word is stored by one turn of the loop.
  have turn := @ataWriteWord_serves ports mem
    { drive.progress lba count .writing (storeWords mem buffer lba.toNat done drive.sectors) done with asked := true }
    done (if_neg (by omega)) rfl (buffer + 2 * done)
  -- After a turn the drive is as it would be had it received one word more.
  have next : AtaDrive.moved (AtaDrive.store
      { drive.progress lba count .writing (storeWords mem buffer lba.toNat done drive.sectors) done with asked := true }
      done (UInt16.ofNat (readLE mem (buffer + 2 * done) 2))) .writing done =
      drive.progress lba count .writing (storeWords mem buffer lba.toNat (done + 1) drive.sectors) (done + 1) := by
    rw [AtaDrive.moved, AtaDrive.store, AtaDrive.progress, AtaDrive.progress, number, first, storeWords_succ]
    rfl
  rw [next] at turn
  exact turn

end

/-- Memory and the sectors of a drive that does nothing are those of a storage. -/
def InStore (storage : Storage) (io : DiskIo) (side : DriveSide) : Prop :=
  ∃ drive : AtaDrive, drive.transfer = .idle ∧ drive.sectors = storage.sectors ∧ InStep storage.mem drive io side

/-- Requests that fit do what they are for. -/
theorem ataRequests_serves {requests : List AtaRequest} (fits : ∀ request ∈ requests, request.Fits) (fuel : Nat)
    (storage : Storage) :
    Serviced (DriveAccepts ports) (ataRequests ports fuel requests) (InStore storage) fun _ =>
      InStore (requests.foldl AtaRequest.apply storage) := by
  induction requests generalizing storage with
  | nil => exact Serviced.pure fun _ _ start => start
  | cons request rest ih =>
    have later := ih (fun other among => fits other (List.mem_cons_of_mem _ among)) (request.apply storage)
    have own := fits request List.mem_cons_self
    have first : Serviced (DriveAccepts ports) (request.call ports fuel) (InStore storage) fun _ =>
        InStore (request.apply storage) := by
      -- Behind a request the drive does nothing again.
      intro io side done next final start goes run
      obtain ⟨drive, idle, same, step⟩ := start
      cases request with
      | read lba buffer count =>
        have reads := ataReadSectors_serves idle own fuel io side done next final step goes run
        rw [same] at reads
        exact ⟨_, if_pos rfl, rfl, reads⟩
      | write lba buffer count =>
        have writes := ataWriteSectors_serves idle own fuel io side done next final step goes run
        rw [same] at writes
        exact ⟨_, if_pos rfl, rfl, writes⟩
    refine Serviced.bind first fun done => Serviced.bind later fun others => ?_
    exact @Serviced.pure _ _ _ _ _ _ (done :: others)
      (fun _ => InStore (rest.foldl AtaRequest.apply (request.apply storage))) fun _ _ kept => kept

end

/-- A word of a buffer that was put there. -/
theorem bufferWord_fetchWords {word : Nat → UInt16} {mem : Memory} {buffer done place : Nat} (early : place < done) :
    bufferWord (fetchWords word mem buffer done) buffer place = word place := by
  -- Words are put into the buffer one behind the other, so that later ones lie above.
  induction done with
  | zero => cases early
  | succ done ih =>
    rw [fetchWords, bufferWord]
    rcases Nat.lt_succ_iff_lt_or_eq.mp early with before | rfl
    · -- The last word lies behind the others.
      rw [readLE_writeLE_apart (.inl (by omega))]
      exact ih before
    · rw [readLE_writeLE_same, Nat.mod_eq_of_lt (show (word place).toNat < 256 ^ 2 from (word place).toNat_lt)]
      exact UInt16.ofNat_toNat

/-- A word of a sector that was stored. -/
theorem storeWords_stored {mem : Memory} {buffer lba done place : Nat} {sectors : Nat → Nat → UInt16}
    (early : place < done) :
    storeWords mem buffer lba done sectors (lba + place / 256) (place % 256) = bufferWord mem buffer place := by
  have number : 256 * (lba + place / 256 - lba) + place % 256 = place := by omega
  rw [storeWords, if_pos (by omega), number]

/-- A request that writes none of some sectors. -/
def AtaRequest.Spares (lba count : Nat) : AtaRequest → Prop
  | .read .. => True
  | .write other _ number => other.toNat + number.toNat ≤ lba ∨ lba + count ≤ other.toNat

/-- Requests that spare a sector leave its words. -/
theorem foldl_spares {requests : List AtaRequest} {lba count : Nat}
    (spares : ∀ request ∈ requests, request.Spares lba count) (storage : Storage) {sector place : Nat}
    (inside : lba ≤ sector ∧ sector < lba + count) :
    (requests.foldl AtaRequest.apply storage).sectors sector place = storage.sectors sector place := by
  induction requests generalizing storage with
  | nil => rfl
  | cons request rest ih =>
    rw [List.foldl_cons, ih fun other among => spares other (List.mem_cons_of_mem _ among)]
    have own := spares request List.mem_cons_self
    cases request with
    | read => rfl
    | write other buffer number =>
      -- The sectors of the write lie in front of this one or behind it.
      rw [AtaRequest.Spares] at own
      exact if_neg (by omega)

/-- Memory in which every byte is the lowest one of its address. -/
def countingMemory : Memory := fun address => UInt8.ofNat address

/-- A drive that asks for words at once, with the words that were written to it. -/
def promptPorts : DiskPorts where
  inb read := if read % 3 = 1 then 0x48 else 0x40
  inw read := bufferWord countingMemory 0x1000 read

/-- A sector is written and read back. -/
def copiedSector : List AtaRequest := [.write 5 0x1000 1, .read 5 0x2000 1]

/-- A drive with zeros on it that does nothing. -/
def blankSide : DriveSide := ⟨0, 0, ⟨⟨0, 0, 0, 0, 0⟩, fun _ _ => 0, .idle, false⟩⟩

/-- The driver comes back from both requests, and the drive answers all of its accesses. -/
theorem copiedSector_runs : ∃ answers after final,
    (ataRequests promptPorts 1 copiedSector ⟨countingMemory, 0, 0⟩).2 = .ok (answers, after) ∧
      Run (DriveAccepts promptPorts) blankSide (ataRequests promptPorts 1 copiedSector ⟨countingMemory, 0, 0⟩).1
        final := by
  have returns : (ataRequests promptPorts 1 copiedSector ⟨countingMemory, 0, 0⟩).2.isOk = true := by decide +kernel
  have answered : ((ataRequests promptPorts 1 copiedSector ⟨countingMemory, 0, 0⟩).1.foldlM (driveStep promptPorts)
      blankSide).isSome = true := by decide +kernel
  obtain ⟨final, took⟩ := Option.isSome_iff_exists.mp answered
  -- What the driver returns is whatever the evaluation gives.
  cases ran : (ataRequests promptPorts 1 copiedSector ⟨countingMemory, 0, 0⟩).2 with
  | error halt =>
    rw [ran] at returns
    cases returns
  | ok result => exact ⟨result.1, result.2, final, rfl, Run.of_foldlM took⟩

section

variable {ports : DiskPorts} {fuel : Nat} {io after : DiskIo} {side final : DriveSide} {answers : List Bool}

/--
Over every sequence of requests that fit, a drive that answers every access takes memory and its sectors where copying
whole sectors takes them, however long the drive lets the driver wait.
-/
theorem ata_refines_storage {requests : List AtaRequest} (fits : ∀ request ∈ requests, request.Fits)
    (counted : side.bytes = io.byteReads ∧ side.words = io.wordReads) (idle : side.drive.transfer = .idle)
    (ran : (ataRequests ports fuel requests io).2 = .ok (answers, after))
    (served : Run (DriveAccepts ports) side (ataRequests ports fuel requests io).1 final) :
    (⟨after.mem, final.drive.sectors⟩ : Storage) = requests.foldl AtaRequest.apply ⟨io.mem, side.drive.sectors⟩ ∧
      final.drive.transfer = .idle := by
  -- Between requests the drive is idle, and the storage is its sectors.
  obtain ⟨drive, ends, same, step⟩ := ataRequests_serves fits fuel ⟨io.mem, side.drive.sectors⟩ io side answers after
    final ⟨side.drive, idle, rfl, counted.1, counted.2, rfl, rfl⟩ ran served
  rw [step.drive, step.mem, same]
  exact ⟨rfl, ends⟩

/-- A run as in the theorem above. -/
theorem copied_sector_stored : ∃ answers after final,
    (ataRequests promptPorts 1 copiedSector ⟨countingMemory, 0, 0⟩).2 = .ok (answers, after) ∧
      Run (DriveAccepts promptPorts) blankSide (ataRequests promptPorts 1 copiedSector ⟨countingMemory, 0, 0⟩).1 final ∧
      (⟨after.mem, final.drive.sectors⟩ : Storage) =
        copiedSector.foldl AtaRequest.apply ⟨countingMemory, fun _ _ => 0⟩ := by
  obtain ⟨answers, after, final, ran, served⟩ := copiedSector_runs
  exact ⟨answers, after, final, ran, served, (ata_refines_storage (by decide) ⟨rfl, rfl⟩ rfl ran served).1⟩

/--
Sectors are read back as they were written, into any buffer, as long as no request between writes them.
-/
theorem ata_reads_written {before between : List AtaRequest} {lba count : UInt32} {source target : Nat}
    (fits : ∀ request ∈ before ++ .write lba source count :: between ++ [.read lba target count], request.Fits)
    (spares : ∀ request ∈ between, request.Spares lba.toNat count.toNat)
    (counted : side.bytes = io.byteReads ∧ side.words = io.wordReads) (idle : side.drive.transfer = .idle)
    (ran : (ataRequests ports fuel (before ++ .write lba source count :: between ++ [.read lba target count]) io).2 =
      .ok (answers, after))
    (served : Run (DriveAccepts ports) side
      (ataRequests ports fuel (before ++ .write lba source count :: between ++ [.read lba target count]) io).1 final) :
    ∀ place < 256 * count.toNat, bufferWord after.mem target place =
      bufferWord (before.foldl AtaRequest.apply ⟨io.mem, side.drive.sectors⟩).mem source place := by
  intro place early
  obtain ⟨drive, -, -, step⟩ := ataRequests_serves fits fuel ⟨io.mem, side.drive.sectors⟩ io side answers after
    final ⟨side.drive, idle, rfl, counted.1, counted.2, rfl, rfl⟩ ran served
  rw [step.mem, List.foldl_append, List.append_cons, List.foldl_append, List.foldl_append]
  generalize before.foldl AtaRequest.apply ⟨io.mem, side.drive.sectors⟩ = storage
  -- The words that are read are those of the sectors, which nobody wrote in between.
  show bufferWord (fetchWords _ _ target (256 * count.toNat)) target place = _
  rw [bufferWord_fetchWords early, foldl_spares spares _ (by omega)]
  exact storeWords_stored early

/-- A run as in the theorem above. -/
theorem copied_sector_read : ∃ answers after,
    (ataRequests promptPorts 1 copiedSector ⟨countingMemory, 0, 0⟩).2 = .ok (answers, after) ∧
      ∀ place < 256, bufferWord after.mem 0x2000 place = bufferWord countingMemory 0x1000 place := by
  obtain ⟨answers, after, final, ran, served⟩ := copiedSector_runs
  exact ⟨answers, after, ran, @ata_reads_written promptPorts 1 ⟨countingMemory, 0, 0⟩ after blankSide final answers
    [] [] 5 1 0x1000 0x2000 (by decide) (fun _ among => nomatch among) ⟨rfl, rfl⟩ rfl ran served⟩

end

end MiraOS

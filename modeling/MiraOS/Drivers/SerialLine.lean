import MiraOS.Machine.Served

/-! The serial line of kernel/main.c, next to a device that sends what it was given in its own time. -/

namespace MiraOS

open Machine

/-- An access to a port of the serial line; a read with what was read. -/
inductive SerialAccess where
  | inb (port : Nat) (value : UInt8)
  | outb (port : Nat) (value : UInt8)

/-- Write a byte to a port. -/
def serialOutb (port : Nat) (value : UInt8) : Traced Nat SerialAccess Unit := .emit (.outb port value)

/-- Set up the line. -/
def serialInit : Traced Nat SerialAccess Unit := do
  serialOutb (0x3F8 + 1) 0x00
  serialOutb (0x3F8 + 3) 0x80
  serialOutb (0x3F8 + 0) 0x03
  serialOutb (0x3F8 + 1) 0x00
  serialOutb (0x3F8 + 3) 0x03
  serialOutb (0x3F8 + 2) 0xC7
  serialOutb (0x3F8 + 4) 0x0B

section

variable (answers : Nat → UInt8)

/-- Read a port; the answers are counted from the first read on. -/
def serialInb (port : Nat) : Traced Nat SerialAccess UInt8 := fun reads =>
  ([.inb port (answers reads)], .ok (answers reads, reads + 1))

/-- The loop that reads the status until the line has sent everything. -/
def serialWait : Nat → Traced Nat SerialAccess Unit
  | 0 => .stop .outOfFuel
  | fuel + 1 => do
    let status ← serialInb answers (0x3F8 + 5)
    if status &&& 0x20 ≠ 0 then pure () else serialWait fuel

/-- Send a byte. -/
def serialPutc (fuel : Nat) (c : UInt8) : Traced Nat SerialAccess Unit := do
  serialWait answers fuel
  serialOutb 0x3F8 c

/-- Send a text; a line feed comes behind a carriage return. -/
def serialWrite (fuel : Nat) : List UInt8 → Traced Nat SerialAccess Unit
  | [] => pure ()
  | c :: s => do
    Traced.onlyIf (c = 10) (serialPutc answers fuel 13)
    serialPutc answers fuel c
    serialWrite fuel s

/-- The messages of the boot, behind the setup. -/
def bootMessages (fuel : Nat) (texts : List (List UInt8)) : Traced Nat SerialAccess Unit := do
  serialInit
  Traced.eachFrom (fun _ text => serialWrite answers fuel text) 0 texts

end

/-- A serial device: its registers, the bytes that wait to be sent, and those that were sent. -/
structure SerialDevice where
  divisorLow : UInt8
  divisorHigh : UInt8
  interruptEnable : UInt8
  lineControl : UInt8
  modemControl : UInt8
  queueing : Bool
  waiting : List UInt8
  sent : List UInt8

/-- The device with some more of the waiting bytes sent. -/
def SerialDevice.sends (device : SerialDevice) (count : Nat) : SerialDevice :=
  { device with waiting := device.waiting.drop count, sent := device.sent ++ device.waiting.take count }

/-- How many bytes can wait. -/
def SerialDevice.room (device : SerialDevice) : Nat := if device.queueing then 16 else 1

/-- The device after a byte was written to a port. -/
def SerialDevice.receive (device : SerialDevice) (port : Nat) (value : UInt8) : SerialDevice :=
  let latched := device.lineControl &&& 0x80 ≠ 0
  if port = 0x3F8 then
    if latched then { device with divisorLow := value }
    -- What finds no room is lost.
    else if device.waiting.length < device.room then { device with waiting := device.waiting ++ [value] }
    else device
  else if port = 0x3F9 then
    if latched then { device with divisorHigh := value } else { device with interruptEnable := value }
  else if port = 0x3FA then
    { device with
      queueing := value &&& 1 ≠ 0
      waiting := if value &&& 5 = 5 then [] else device.waiting }
  else if port = 0x3FB then { device with lineControl := value }
  else if port = 0x3FC then { device with modemControl := value }
  else device

/-- An access at some time: the device has sent some more, and says truly whether nothing waits. -/
def SerialAccepts (device : SerialDevice) (access : SerialAccess) (after : SerialDevice) : Prop :=
  ∃ count, match access with
  | .inb port value =>
    (port = 0x3FD → (value &&& 0x20 ≠ 0 ↔ (device.sends count).waiting = [])) ∧ after = device.sends count
  | .outb port value => after = (device.sends count).receive port value

/-- A text as it goes over the line. -/
def lineText (text : List UInt8) : List UInt8 := text.flatMap fun c => if c = 10 then [13, c] else [c]

/-- The line is set up, and has taken some bytes. -/
structure SerialDevice.Took (device : SerialDevice) (enabled : UInt8) (bytes : List UInt8) : Prop where
  divisor : device.divisorLow = 3 ∧ device.divisorHigh = 0
  control : device.lineControl = 3 ∧ device.modemControl = 0x0B ∧ device.interruptEnable = enabled
  queueing : device.queueing = true
  taken : device.sent ++ device.waiting = bytes

section

variable {device after : SerialDevice} {enabled : UInt8} {bytes : List UInt8}

/-- Sending what waits takes no bytes. -/
theorem SerialDevice.Took.sends (took : device.Took enabled bytes) (count : Nat) :
    (device.sends count).Took enabled bytes where
  divisor := took.divisor
  control := took.control
  queueing := took.queueing
  taken := by
    -- The bytes on their way out are the front of those that wait, in order.
    show device.sent ++ device.waiting.take count ++ device.waiting.drop count = bytes
    rw [List.append_assoc, List.take_append_drop]
    exact took.taken

/-- With nothing waiting a byte is taken. -/
theorem SerialDevice.Took.receive (took : device.Took enabled bytes) (empty : device.waiting = []) (c : UInt8) :
    (device.receive 0x3F8 c).Took enabled (bytes ++ [c]) := by
  -- The divisor is no longer latched, so that the byte goes to the line, and an empty queue has room.
  have open_ : ¬ (device.lineControl &&& 0x80 ≠ 0) := by
    rw [took.control.1]
    decide
  have room : device.waiting.length < device.room := by
    rw [empty, SerialDevice.room, if_pos took.queueing]
    decide
  rw [SerialDevice.receive, if_pos rfl, if_neg open_, if_pos room]
  exact ⟨took.divisor, took.control, took.queueing, by rw [← List.append_assoc, took.taken]⟩

/-- The device has sent some of what waited, and lost nothing. -/
def SerialDevice.SentOn (device after : SerialDevice) : Prop :=
  ∃ count, after.sent = device.sent ++ device.waiting.take count ∧ after.waiting = device.waiting.drop count

/-- Writing a register other than the queue's sends and loses nothing. -/
theorem SerialDevice.receive_register {port : Nat} (register : port = 0x3F9 ∨ port = 0x3FB ∨ port = 0x3FC ∨
    port = 0x3F8 ∧ device.lineControl &&& 0x80 ≠ 0) (value : UInt8) :
    (device.receive port value).sent = device.sent ∧ (device.receive port value).waiting = device.waiting := by
  -- None of the four ports takes a byte for the line.
  rcases register with rfl | rfl | rfl | ⟨rfl, latched⟩
  · rw [receive, if_neg (by decide), if_pos rfl]
    split <;> exact ⟨rfl, rfl⟩
  · exact ⟨rfl, rfl⟩
  · exact ⟨rfl, rfl⟩
  · rw [receive, if_pos rfl, if_pos latched]
    exact ⟨rfl, rfl⟩

/-- The device goes on sending while its registers are written. -/
theorem SerialDevice.SentOn.next (sentOn : device.SentOn after) (count port : Nat) (value : UInt8)
    (register : port = 0x3F9 ∨ port = 0x3FB ∨ port = 0x3FC ∨ port = 0x3F8 ∧ after.lineControl &&& 0x80 ≠ 0) :
    device.SentOn ((after.sends count).receive port value) := by
  -- What was sent later was waiting before, behind what was sent first.
  obtain ⟨before, first, rest⟩ := sentOn
  obtain ⟨sent, waiting⟩ := @receive_register (after.sends count) port register value
  refine ⟨before + count, ?_, ?_⟩
  · rw [sent, List.take_add, ← List.append_assoc, ← first, ← rest]
    rfl
  · rw [waiting, ← List.drop_drop, ← rest]
    rfl

/-- The setup leaves the line as it says, and clears what has not been sent. -/
theorem serialInit_took {reads : Nat} (run : Run SerialAccepts device (serialInit reads).1 after) :
    ∃ count enabled, (device.lineControl &&& 0x80 = 0 → enabled = 0) ∧
      after.Took enabled (device.sent ++ device.waiting.take count) := by
  have log : (serialInit reads).1 = [.outb 0x3F9 0, .outb 0x3FB 0x80, .outb 0x3F8 3, .outb 0x3F9 0, .outb 0x3FB 3,
    .outb 0x3FA 0xC7, .outb 0x3FC 0x0B] := rfl
  rw [log] at run
  -- Between any two accesses the device may send some more.
  obtain _ | ⟨⟨n₁, rfl⟩, _ | ⟨⟨n₂, rfl⟩, _ | ⟨⟨n₃, rfl⟩, _ | ⟨⟨n₄, rfl⟩, _ | ⟨⟨n₅, rfl⟩, _ | ⟨⟨n₆, rfl⟩, _ |
    ⟨⟨n₇, rfl⟩, _ | _⟩⟩⟩⟩⟩⟩⟩ := run
  have start : device.SentOn device := ⟨0, by simp, rfl⟩
  have first := start.next n₁ 0x3F9 0 (.inl rfl)
  have latch := first.next n₂ 0x3FB 0x80 (.inr (.inl rfl))
  have low := latch.next n₃ 0x3F8 3 (.inr (.inr (.inr ⟨rfl, show (0x80 : UInt8) &&& 0x80 ≠ 0 by decide⟩)))
  have high := low.next n₄ 0x3F9 0 (.inl rfl)
  have format := high.next n₅ 0x3FB 3 (.inr (.inl rfl))
  obtain ⟨count, sent, -⟩ := format.next n₆ 0x3FB 3 (.inr (.inl rfl))
  refine ⟨count, if device.lineControl &&& 0x80 ≠ 0 then device.interruptEnable else 0,
    fun open_ => if_neg (not_not.mpr open_), ⟨?_, ?_⟩, ⟨rfl, rfl, ?_⟩, rfl, ?_⟩
  · simp [SerialDevice.receive, SerialDevice.sends]
  · simp [SerialDevice.receive, SerialDevice.sends]
  · by_cases open_ : device.lineControl &&& 0x80 = 0 <;>
      simp [SerialDevice.receive, SerialDevice.sends, open_]
  · rw [← sent]
    show _ ++ List.take n₇ [] ++ List.drop n₇ [] = _
    rw [List.take_nil, List.drop_nil, List.append_nil, List.append_nil]
    rfl

/-- Waiting takes no bytes, and ends when nothing waits. -/
theorem serialWait_serves (answers : Nat → UInt8) (fuel : Nat) :
    Serviced SerialAccepts (serialWait answers fuel) (fun _ device => device.Took enabled bytes)
      fun _ _ device => device.Took enabled bytes ∧ device.waiting = [] := by
  -- Induction on the fuel: each turn reads the status once, and it is ready only when nothing waits.
  induction fuel with
  | zero => exact Serviced.stop
  | succ fuel ih =>
    have read : Serviced SerialAccepts (serialInb answers 0x3FD) (fun _ device => device.Took enabled bytes)
        fun status _ device => device.Took enabled bytes ∧ (status &&& 0x20 ≠ 0 → device.waiting = []) := by
      refine Serviced.event (fun reads => .inb 0x3FD (answers reads)) (fun _ => rfl) ?_
      rintro reads device status next final took goes ⟨count, truly, rfl⟩
      obtain ⟨rfl, -⟩ := Prod.mk.inj (Except.ok.inj goes)
      exact ⟨took.sends count, (truly rfl).mp⟩
    refine read.bind fun status => ?_
    split_ifs with ready
    · exact Serviced.pure fun _ device kept => ⟨kept.1, kept.2 ready⟩
    · exact ih.weaken (fun _ _ kept => kept.1) fun _ _ _ kept => kept

/-- A byte is taken, once nothing waits. -/
theorem serialPutc_serves (answers : Nat → UInt8) (fuel : Nat) (c : UInt8) :
    Serviced SerialAccepts (serialPutc answers fuel c) (fun _ device => device.Took enabled bytes)
      fun _ _ device => device.Took enabled (bytes ++ [c]) := by
  refine (serialWait_serves answers fuel).bind fun _ => ?_
  refine Serviced.event (fun _ => .outb 0x3F8 c) (fun _ => rfl) ?_
  rintro reads device _ next final ⟨took, empty⟩ goes ⟨count, rfl⟩
  -- What the device sends in between is nothing.
  refine (took.sends count).receive ?_ c
  show device.waiting.drop count = []
  rw [empty, List.drop_nil]

/-- A text is taken as it goes over the line. -/
theorem serialWrite_serves (answers : Nat → UInt8) (fuel : Nat) (text : List UInt8) :
    Serviced SerialAccepts (serialWrite answers fuel text) (fun _ device => device.Took enabled bytes)
      fun _ _ device => device.Took enabled (bytes ++ lineText text) := by
  -- Induction on the text: each character, with a carriage return in front of a line feed, joins what was
  -- taken.
  induction text generalizing bytes with
  | nil => exact Serviced.pure fun _ _ took => (List.append_nil bytes).symm ▸ took
  | cons c s ih =>
    have front : Serviced SerialAccepts (Traced.onlyIf (c = 10) (serialPutc answers fuel 13))
        (fun _ device => device.Took enabled bytes)
        fun _ _ device => device.Took enabled (bytes ++ if c = 10 then [13] else []) := by
      rw [Traced.onlyIf]
      split_ifs
      · exact serialPutc_serves answers fuel 13
      · exact Serviced.pure fun _ _ took => (List.append_nil bytes).symm ▸ took
    -- The line of a text is that of its first character and of the rest.
    have whole : bytes ++ lineText (c :: s) =
        bytes ++ (if c = 10 then [13] else []) ++ [c] ++ lineText s := by
      rw [lineText, List.flatMap_cons]
      split_ifs <;> simp [lineText]
    rw [whole]
    exact front.bind fun _ => (serialPutc_serves answers fuel c).bind fun _ => ih

/-- With answers that are soon ready the waiting ends. -/
theorem serialWait_completes {answers : Nat → UInt8} {fuel : Nat}
    (prompt : ∀ reads, ∃ more < fuel, answers (reads + more) &&& 0x20 ≠ 0) : Completes (serialWait answers fuel) := by
  have ends : ∀ fuel reads, (∃ more < fuel, answers (reads + more) &&& 0x20 ≠ 0) →
      ∃ value next, (serialWait answers fuel reads).2 = .ok (value, next) := by
    intro fuel
    induction fuel with
    | zero =>
      rintro reads ⟨more, less, -⟩
      exact absurd less (Nat.not_lt_zero more)
    | succ fuel ih =>
      rintro reads ⟨more, less, ready⟩
      have read : (serialInb answers (0x3F8 + 5) reads).2 = .ok (answers reads, reads + 1) := rfl
      rw [serialWait, Traced.bind_ok read]
      dsimp only
      split_ifs with now
      · exact ⟨(), reads + 1, rfl⟩
      · -- The answer that is ready comes later.
        obtain ⟨later, rfl⟩ : ∃ later, more = later + 1 := by
          refine ⟨more - 1, ?_⟩
          have some : more ≠ 0 := fun zero => now (by rwa [zero] at ready)
          omega
        exact ih (reads + 1) ⟨later, by omega, by rwa [show reads + 1 + later = reads + (later + 1) by omega]⟩
  exact fun reads => ends fuel reads (prompt reads)

/-- With such answers a text is written. -/
theorem serialWrite_completes {answers : Nat → UInt8} {fuel : Nat}
    (prompt : ∀ reads, ∃ more < fuel, answers (reads + more) &&& 0x20 ≠ 0) (text : List UInt8) :
    Completes (serialWrite answers fuel text) := by
  -- A character is a wait and one write.
  have putc : ∀ c, Completes (serialPutc answers fuel c) := fun c =>
    (serialWait_completes prompt).bind fun _ state => ⟨(), state, rfl⟩
  induction text with
  | nil => exact Completes.pure ()
  | cons c s ih =>
    refine Completes.bind ?_ fun _ => (putc c).bind fun _ => ih
    rw [Traced.onlyIf]
    split_ifs
    · exact putc 13
    · exact Completes.pure ()

/-- Texts are taken one after another. -/
theorem serialTexts_serves (answers : Nat → UInt8) (fuel : Nat) (texts : List (List UInt8)) :
    Serviced SerialAccepts (Traced.eachFrom (fun _ text => serialWrite answers fuel text) 0 texts)
      (fun _ device => device.Took enabled bytes)
      fun _ _ device => device.Took enabled (bytes ++ texts.flatMap lineText) := by
  -- The texts one by one, each of them behind those before.
  have each := @Serviced.eachFrom _ _ _ _ SerialAccepts (fun _ text => serialWrite answers fuel text) texts 0
    (fun k _ device => device.Took enabled (bytes ++ (texts.take k).flatMap lineText)) fun k text found => by
      have turn := @serialWrite_serves enabled (bytes ++ (texts.take k).flatMap lineText) answers fuel text
      have more : (texts.take (k + 1)).flatMap lineText = (texts.take k).flatMap lineText ++ lineText text := by
        rw [List.take_add_one, found, Option.toList_some, List.flatMap_append, List.flatMap_singleton]
      rw [more, ← List.append_assoc]
      exact turn
  rw [List.take_length] at each
  exact each.weaken (fun _ _ took => by rwa [List.take_zero, List.flatMap_nil, List.append_nil]) fun _ _ _ kept => kept

end

/--
The messages of the boot are sent whole, whatever the device does in the meantime.

With a device that is ready again soon enough the code goes on. The device is then set up as the code says, and it
has sent, or still sends, all texts in order with a carriage return in front of every line feed; in front of them
stands what it had sent already, and some of what had been waiting before.
-/
theorem boot_messages_sent {answers : Nat → UInt8} {fuel : Nat}
    (prompt : ∀ reads, ∃ more < fuel, answers (reads + more) &&& 0x20 ≠ 0) (texts : List (List UInt8)) (reads : Nat) :
    (∃ later, (bootMessages answers fuel texts reads).2 = .ok ((), later)) ∧
    ∀ device after, Run SerialAccepts device (bootMessages answers fuel texts reads).1 after →
      ∃ count enabled, (device.lineControl &&& 0x80 = 0 → enabled = 0) ∧
        after.Took enabled (device.sent ++ device.waiting.take count ++ texts.flatMap lineText) := by
  -- The code never comes to a stop but by waiting, and the device is ready in time.
  have whole : Completes (bootMessages answers fuel texts) :=
    Completes.bind (fun state => ⟨(), state, rfl⟩) fun _ =>
      Completes.eachFrom (fun _ text => serialWrite_completes prompt text) texts 0
  obtain ⟨value, later, goes⟩ := whole reads
  refine ⟨⟨later, goes⟩, fun device after run => ?_⟩
  have init : (serialInit reads).2 = .ok ((), reads) := rfl
  rw [bootMessages, Traced.bind_ok init] at goes run
  -- The accesses that set the port up come first, and then those of the texts.
  obtain ⟨between, front, back⟩ := run.split
  obtain ⟨count, enabled, first, took⟩ := serialInit_took front
  exact ⟨count, enabled, first, serialTexts_serves answers fuel texts reads between value later after took goes back⟩

/-- A device that is idle, and latched by nobody. -/
def idleSerial : SerialDevice where
  divisorLow := 0
  divisorHigh := 0
  interruptEnable := 0
  lineControl := 0
  modemControl := 0
  queueing := false
  waiting := []
  sent := []

/-- A line of one letter goes over the line with both ends. -/
theorem one_line_sent : ∃ later after, (bootMessages (fun _ => 0x20) 1 [[77, 10]] 0).2 = .ok ((), later) ∧
    Run SerialAccepts idleSerial (bootMessages (fun _ => 0x20) 1 [[77, 10]] 0).1 after ∧
    after.sent ++ after.waiting = [77, 13, 10] := by
  obtain ⟨⟨later, goes⟩, sent⟩ := @boot_messages_sent (fun _ => 0x20) 1
    (fun _ => ⟨0, by decide, show (0x20 : UInt8) &&& 0x20 ≠ 0 by decide⟩) [[77, 10]] 0
  -- The device has sent everything whenever it is accessed.
  have run : ∃ after, Run SerialAccepts idleSerial (bootMessages (fun _ => 0x20) 1 [[77, 10]] 0).1 after :=
    ⟨_, .cons ⟨16, rfl⟩ (.cons ⟨16, rfl⟩ (.cons ⟨16, rfl⟩ (.cons ⟨16, rfl⟩ (.cons ⟨16, rfl⟩ (.cons ⟨16, rfl⟩
      (.cons ⟨16, rfl⟩ (.cons ⟨16, fun _ => by decide, rfl⟩ (.cons ⟨16, rfl⟩ (.cons ⟨16, fun _ => by decide, rfl⟩
        (.cons ⟨16, rfl⟩ (.cons ⟨16, fun _ => by decide, rfl⟩ (.cons ⟨16, rfl⟩ (.nil _)))))))))))))⟩
  obtain ⟨after, run⟩ := run
  obtain ⟨_, _, -, took⟩ := sent idleSerial after run
  refine ⟨later, after, goes, run, ?_⟩
  rw [took.taken, show idleSerial.waiting = [] from rfl, List.take_nil]
  rfl

end MiraOS

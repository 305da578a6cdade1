import Mathlib.Data.Finset.Range
import MiraOS.Drivers.InterruptControllers
import MiraOS.Drivers.InterruptRouting
import MiraOS.Machine.Served

/-! What the interrupt controllers are for: no interrupt is blocked by an earlier one, and each comes under its own
vector. -/

namespace MiraOS

open Machine

/-- What the interrupts are for: the lines that wait, the lines that are kept off, and what the processor does. -/
structure InterruptDesk where
  waiting : Finset Nat
  denied : Finset Nat
  turn : CpuTurn

/-- The place of a line among all in the order in which they are served: those of the second controller come third. -/
def linePlace (line : Nat) : Nat := if line < 2 then line else if 8 ≤ line then line - 6 else line + 8

/-- A line that waits and gets through; the upper ones pass line 2 as well. -/
def InterruptDesk.Open (desk : InterruptDesk) (line : Nat) : Prop :=
  line ∈ desk.waiting ∧ line ∉ desk.denied ∧ (8 ≤ line → 2 ∉ desk.denied)

/-- The line to be served next. -/
def InterruptDesk.First (desk : InterruptDesk) (line : Nat) : Prop :=
  desk.Open line ∧ ∀ other, desk.Open other → linePlace line ≤ linePlace other

/-- The next one of the upper lines, once they are asked. -/
def InterruptDesk.FirstUpper (desk : InterruptDesk) (line : Nat) : Prop :=
  (8 ≤ line ∧ line ∈ desk.waiting ∧ line ∉ desk.denied) ∧
    ∀ other, 8 ≤ other → other ∈ desk.waiting → other ∉ desk.denied → line ≤ other

/-- The line is taken off the desk and handled under its own vector. -/
def InterruptDesk.serve (desk : InterruptDesk) (line : Nat) : InterruptDesk :=
  { desk with waiting := desk.waiting.erase line, turn := .handling (32 + line) }

/-- What can happen at the desk. -/
inductive DeskStep (desk : InterruptDesk) : InterruptEvent → InterruptDesk → Prop where
  -- Devices ask whenever they like.
  | raise {line : Nat} (device : line < 16 ∧ line ≠ 2) :
      DeskStep desk (.raise line) { desk with waiting := insert line desk.waiting }
  | withdraw {line : Nat} (device : line < 16 ∧ line ≠ 2) :
      DeskStep desk (.withdraw line) { desk with waiting := desk.waiting.erase line }
  -- One of the lower lines is served at once, and the upper ones are asked which of them it is.
  | acceptLower {line : Nat} (running : desk.turn = .running) (first : desk.First line) (lower : line < 8) :
      DeskStep desk .accept (desk.serve line)
  | acceptUpper {line : Nat} (running : desk.turn = .running) (first : desk.First line) (upper : 8 ≤ line) :
      DeskStep desk .accept { desk with turn := .asking }
  | acceptNone (running : desk.turn = .running) (none : ∀ line, ¬ desk.Open line) :
      DeskStep desk .accept { desk with turn := .handling 39 }
  | answer {line : Nat} (asking : desk.turn = .asking) (first : desk.FirstUpper line) :
      DeskStep desk .answer (desk.serve line)
  | answerNone (asking : desk.turn = .asking) (none : ∀ line, ¬ desk.FirstUpper line) :
      DeskStep desk .answer { desk with turn := .handling 47 }
  | finish {vector : Nat} (handling : desk.turn = .handling vector) :
      DeskStep desk .finish { desk with turn := .running }
  -- The numbers behind the last line mask nothing.
  | mask {irq : UInt8} (between : desk.turn ≠ .asking) :
      DeskStep desk (.mask irq)
        { desk with denied := if irq < 16 then insert irq.toNat desk.denied else desk.denied }
  | unmask {irq : UInt8} (between : desk.turn ≠ .asking) :
      DeskStep desk (.unmask irq) { desk with denied := desk.denied.erase irq.toNat }

/-- The lines that wait at the controllers, and those that are masked. -/
def Pics.waiting (pics : Pics) : Finset Nat :=
  (Finset.range 16).filter fun line =>
    if line < 8 then line ∈ pics.master.requests else line - 8 ∈ pics.slave.requests

def Pics.denied (pics : Pics) : Finset Nat :=
  (Finset.range 16).filter fun line => if line < 8 then pics.master.Masked line else pics.slave.Masked (line - 8)

/-- The desk that the controllers stand for. -/
def InterruptSystem.desk (sys : InterruptSystem) : InterruptDesk := ⟨sys.pics.waiting, sys.pics.denied, sys.turn⟩

/-- At most one line is in service. -/
def Pic.Single (pic : Pic) : Prop := pic.service = ∅ ∨ ∃ line < 8, pic.service = {line}

/-- The controllers are initialised, and only lines with devices wait. -/
structure Pics.Ready (pics : Pics) : Prop where
  master : pics.master.awaited = 0 ∧ pics.master.offset = 0x20 ∧ pics.master.cascade = 0x04
  slave : pics.slave.awaited = 0 ∧ pics.slave.offset = 0x28 ∧ pics.slave.cascade = 0x02
  lower : ∀ line ∈ pics.master.requests, line < 8 ∧ line ≠ 2
  upper : ∀ line ∈ pics.slave.requests, line < 8

/-- What is in service is what the end of the handler takes out of it. -/
def InterruptSystem.InService (sys : InterruptSystem) : Prop :=
  match sys.turn with
  | .running => sys.pics.master.service = ∅ ∧ sys.pics.slave.service = ∅
  | .asking => sys.pics.master.service = {2} ∧ sys.pics.slave.service = ∅
  | .handling vector =>
    32 ≤ vector ∧ vector < 48 ∧ sys.pics.master.Single ∧
      if vector < 40 then sys.pics.slave.service = ∅ else sys.pics.slave.Single

/-- The controllers are ready and keep up with the processor. -/
structure InterruptSystem.Sound (sys : InterruptSystem) : Prop where
  ready : sys.pics.Ready
  service : sys.InService

section

variable {pic : Pic} {requests : Finset Nat} {line : Nat}

/-- With nothing in service the first line that waits and is not masked is signalled. -/
theorem Pic.signal_eq_some (none : pic.service = ∅) :
    pic.signal requests = some line ↔
      line < 8 ∧ (line ∈ requests ∧ ¬ pic.Masked line) ∧ ∀ other < line, other ∈ requests → pic.Masked other := by
  -- With nothing in service the controller answers with the lowest unmasked request.
  rw [Pic.signal, List.find?_range_eq_some]
  simp only [none, Finset.notMem_empty, false_implies, implies_true, and_true, decide_eq_true_eq, List.mem_range,
    Bool.not_eq_true', decide_eq_false_iff_not, not_and, not_not]
  tauto

theorem Pic.signal_eq_none (none : pic.service = ∅) :
    pic.signal requests = .none ↔ ∀ other < 8, other ∈ requests → pic.Masked other := by
  rw [Pic.signal, List.find?_range_eq_none]
  simp only [none, Finset.notMem_empty, false_implies, implies_true, and_true,
    Bool.not_eq_true', decide_eq_false_iff_not, not_and, not_not]

/-- The end of the only interrupt in service leaves none. -/
theorem Pic.command_eoi (single : pic.Single) : pic.command picEoi = { pic with service := ∅ } := by
  rw [Pic.command, if_neg (by decide), if_pos rfl]
  rcases single with empty | ⟨line, low, only⟩
  · -- Nothing is found, so nothing is taken out.
    have none : ((List.range 8).find? fun line => decide (line ∈ pic.service)) = .none := by
      rw [empty]
      rfl
    rw [none]
    show pic = _
    rw [← empty]
  · have found : ((List.range 8).find? fun other => decide (other ∈ pic.service)) = some line := by
      rw [List.find?_range_eq_some, only]
      exact ⟨by simp, List.mem_range.mpr low, fun other before => by simp; omega⟩
    rw [found]
    simp only [only, Finset.erase_singleton]

/-- A bit of a line is that of the line alone. -/
theorem picBit_testBit {irq : UInt8} (low : irq < 31) {place : Nat} (small : place < 8) :
    (picBit irq).toNat.testBit place = decide (place = irq.toNat) := by
  have below : irq.toNat < 31 := UInt8.lt_iff_toNat_lt.mp low
  -- The bit is set in a word of 32 bits and cut off to a byte, where the places below eight are the same.
  have shift : irq.toNat % 32 = irq.toNat := Nat.mod_eq_of_lt (by omega)
  rw [picBit, UInt32.toNat_toUInt8, UInt32.toNat_shiftLeft, UInt8.toNat_toUInt32, shift, Nat.testBit_mod_two_pow,
    Nat.testBit_mod_two_pow, UInt32.toNat_one, Nat.one_shiftLeft, Nat.testBit_two_pow, decide_eq_true small,
    decide_eq_true (show place < 32 by omega), Bool.true_and, Bool.true_and]
  exact decide_eq_decide.mpr eq_comm

end

section

variable {pics changed : Pics} {line other : Nat}

/-- The lines of the two controllers, by number. -/
theorem Pics.mem_waiting_lower (low : line < 8) : line ∈ pics.waiting ↔ line ∈ pics.master.requests := by
  rw [Pics.waiting, Finset.mem_filter, Finset.mem_range, if_pos low]
  exact and_iff_right (by omega)

theorem Pics.mem_waiting_upper (high : 8 ≤ line) (inside : line < 16) :
    line ∈ pics.waiting ↔ line - 8 ∈ pics.slave.requests := by
  rw [Pics.waiting, Finset.mem_filter, Finset.mem_range, if_neg (by omega)]
  exact and_iff_right inside

theorem Pics.mem_denied_lower (low : line < 8) : line ∈ pics.denied ↔ pics.master.Masked line := by
  rw [Pics.denied, Finset.mem_filter, Finset.mem_range, if_pos low]
  exact and_iff_right (by omega)

theorem Pics.mem_denied_upper (high : 8 ≤ line) (inside : line < 16) :
    line ∈ pics.denied ↔ pics.slave.Masked (line - 8) := by
  rw [Pics.denied, Finset.mem_filter, Finset.mem_range, if_neg (by omega)]
  exact and_iff_right inside

theorem Pics.lt_of_waiting (waits : line ∈ pics.waiting) : line < 16 :=
  Finset.mem_range.mp (Finset.mem_of_mem_filter line waits)

theorem Pics.lt_of_denied (denied : line ∈ pics.denied) : line < 16 :=
  Finset.mem_range.mp (Finset.mem_of_mem_filter line denied)

/-- Two sets of lines with the same lower and upper ones. -/
theorem lines_ext {one two : Finset Nat} (inside : ∀ line ∈ one, line < 16) (within : ∀ line ∈ two, line < 16)
    (lower : ∀ line < 8, line ∈ one ↔ line ∈ two) (upper : ∀ line, 8 ≤ line → line < 16 → (line ∈ one ↔ line ∈ two)) :
    one = two := by
  ext line
  -- A line belongs to the first controller, to the second one or to none.
  rcases Nat.lt_or_ge line 8 with low | high
  · exact lower line low
  · rcases Nat.lt_or_ge line 16 with far | outside
    · exact upper line high far
    · exact ⟨fun among => absurd (inside line among) (by omega), fun among => absurd (within line among) (by omega)⟩

/-- A device that asks, or no longer does, changes the line alone. -/
theorem Pics.wire_eq_some {change : Finset Nat → Nat → Finset Nat} {asks : Prop} [Decidable asks]
    (changes : ∀ lines line other, other ∈ change lines line ↔ if other = line then asks else other ∈ lines)
    (wired : pics.wire change line = some changed) :
    (line < 16 ∧ line ≠ 2) ∧ (∀ other, other ∈ changed.waiting ↔ if other = line then asks else other ∈ pics.waiting) ∧
      changed.denied = pics.denied ∧ (pics.Ready → changed.Ready) ∧
      changed.master.service = pics.master.service ∧ changed.slave.service = pics.slave.service := by
  rw [Pics.wire] at wired
  split_ifs at wired with lower upper
  · -- A line of the first controller.
    obtain rfl := Option.some.inj wired
    refine ⟨⟨by omega, lower.2⟩, fun other => ?_, rfl, fun ready => ?_, rfl, rfl⟩
    · -- A lower line waits if the master has it, an upper one is not touched.
      rcases Nat.lt_or_ge other 8 with low | high
      · rw [Pics.mem_waiting_lower low, Pics.mem_waiting_lower low]
        exact changes _ _ _
      · rw [if_neg (by omega)]
        exact Finset.mem_filter.trans ((and_congr_right fun _ => by rw [if_neg (by omega), if_neg (by omega)]).trans
          Finset.mem_filter.symm)
    · refine ⟨ready.master, ready.slave, fun other among => ?_, ready.upper⟩
      have waits := (changes _ _ _).mp among
      split_ifs at waits with same
      · exact same ▸ lower
      · exact ready.lower other waits
  · obtain rfl := Option.some.inj wired
    refine ⟨⟨upper.2, by omega⟩, fun other => ?_, rfl, fun ready => ?_, rfl, rfl⟩
    · -- Only the slave's requests change, so only the upper lines do.
      rcases Nat.lt_or_ge other 8 with low | high
      · rw [if_neg (by omega), Pics.mem_waiting_lower low, Pics.mem_waiting_lower low]
      · rcases Nat.lt_or_ge other 16 with far | outside
        · rw [Pics.mem_waiting_upper high far, Pics.mem_waiting_upper high far]
          refine (changes _ _ _).trans ?_
          by_cases same : other = line
          · rw [if_pos (by omega), if_pos same]
          · rw [if_neg (by omega), if_neg same]
        · rw [if_neg (by omega)]
          exact ⟨fun among => absurd (Pics.lt_of_waiting among) (by omega),
            fun among => absurd (Pics.lt_of_waiting among) (by omega)⟩
    · refine ⟨ready.master, ready.slave, ready.lower, fun other among => ?_⟩
      have waits := (changes _ _ _).mp among
      split_ifs at waits with same
      · omega
      · exact ready.upper other waits

/-- What a byte at a data port does once the controller is initialised. -/
theorem Pic.data_ready {pic : Pic} (done : pic.awaited = 0) (value : UInt8) :
    pic.data value = { pic with mask := value } := by
  simp only [Pic.data, done]

/-- The masks with one bit changed. -/
def Pics.remask (pics : Pics) (bits : UInt8 → UInt8 → UInt8) (irq : UInt8) : Pics :=
  if irq < 8 then { pics with master := { pics.master with mask := bits pics.master.mask (picBit irq) } }
  else { pics with slave := { pics.slave with mask := bits pics.slave.mask (picBit (irq - 8)) } }

/-- Masking a line and letting it through write the masks with its bit changed. -/
theorem Pics.write_mask (ready : pics.Ready) (irq : UInt8) :
    pics.write (picMaskIrq pics.read irq) = pics.remask (fun mask bit => mask ||| bit) irq := by
  rw [picMaskIrq, Pics.remask]
  -- The lower lines are masked in the master, the upper ones in the slave.
  split_ifs with low
  · exact congrArg (Pics.mk · pics.slave) (Pic.data_ready ready.master.1 _)
  · exact congrArg (Pics.mk pics.master ·) (Pic.data_ready ready.slave.1 _)

theorem Pics.write_unmask (ready : pics.Ready) (irq : UInt8) :
    pics.write (picUnmaskIrq pics.read irq) = pics.remask (fun mask bit => mask &&& ~~~ bit) irq := by
  rw [picUnmaskIrq, Pics.remask]
  -- The same two cases as for masking.
  split_ifs with low
  · exact congrArg (Pics.mk · pics.slave) (Pic.data_ready ready.master.1 _)
  · exact congrArg (Pics.mk pics.master ·) (Pic.data_ready ready.slave.1 _)

/-- The bits of the masks that are written. -/
theorem or_picBit {mask irq : UInt8} (low : irq < 31) {place : Nat} (small : place < 8) :
    (mask ||| picBit irq).toNat.testBit place = if place = irq.toNat then true else mask.toNat.testBit place := by
  rw [UInt8.toNat_or, Nat.testBit_or, picBit_testBit low small]
  -- The bit of the line itself, or another one.
  by_cases same : place = irq.toNat <;> simp [same]

theorem and_picBit {mask irq : UInt8} (low : irq < 31) {place : Nat} (small : place < 8) :
    (mask &&& ~~~ picBit irq).toNat.testBit place = if place = irq.toNat then false else mask.toNat.testBit place := by
  -- The bits of the complement are the others, as far as a byte goes.
  have flipped : (~~~ picBit irq).toNat.testBit place = ! (picBit irq).toNat.testBit place := by
    have bits : (~~~ (picBit irq).toBitVec).getLsbD place = _ := BitVec.getLsbD_not
    rw [decide_eq_true small, Bool.true_and] at bits
    exact bits
  rw [UInt8.toNat_and, Nat.testBit_and, flipped, picBit_testBit low small]
  by_cases same : place = irq.toNat <;> simp [same]

/-- Changing the bit of a line masks that line, or no longer does, and nothing else. -/
theorem Pics.remask_spec {bits : UInt8 → UInt8 → UInt8} {value : Bool} {irq : UInt8} (low : irq < 39)
    (changes : ∀ {mask irq : UInt8}, irq < 31 → ∀ {place : Nat}, place < 8 →
      (bits mask (picBit irq)).toNat.testBit place = if place = irq.toNat then value else mask.toNat.testBit place) :
    (pics.remask bits irq).waiting = pics.waiting ∧
      (∀ other, other ∈ (pics.remask bits irq).denied ↔
        if other = irq.toNat then value = true ∧ other < 16 else other ∈ pics.denied) ∧
      (pics.Ready → (pics.remask bits irq).Ready) ∧
      (pics.remask bits irq).master.service = pics.master.service ∧
      (pics.remask bits irq).slave.service = pics.slave.service := by
  have below : irq.toNat < 39 := UInt8.lt_iff_toNat_lt.mp low
  -- The line belongs to the first or to the second controller, or to none of them.
  by_cases first : irq < 8
  · have lower : irq.toNat < 8 := UInt8.lt_iff_toNat_lt.mp first
    rw [Pics.remask, if_pos first]
    refine ⟨rfl, fun other => ?_, fun ready => ⟨ready.master, ready.slave, ready.lower, ready.upper⟩, rfl, rfl⟩
    -- A lower line's bit lies in the master's mask.
    rcases Nat.lt_or_ge other 8 with small | high
    · rw [Pics.mem_denied_lower small, Pics.mem_denied_lower small, Pic.Masked,
        changes (UInt8.lt_iff_toNat_lt.mpr (show irq.toNat < 31 by omega)) small]
      split_ifs
      · exact (and_iff_left (by omega)).symm
      · exact Iff.rfl
    · rw [if_neg (by omega)]
      exact Finset.mem_filter.trans ((and_congr_right fun _ => by rw [if_neg (by omega), if_neg (by omega)]).trans
        Finset.mem_filter.symm)
  · -- An upper line's bit lies in the slave's mask, eight places down.
    have upper : 8 ≤ irq.toNat := by
      have := mt UInt8.lt_iff_toNat_lt.mpr first
      exact Nat.le_of_not_lt this
    have place : (irq - 8).toNat = irq.toNat - 8 := UInt8.toNat_sub_of_le _ _ (UInt8.le_iff_toNat_le.mpr upper)
    have short : irq - 8 < 31 := UInt8.lt_iff_toNat_lt.mpr (by rw [place]; show irq.toNat - 8 < 31; omega)
    rw [Pics.remask, if_neg first]
    refine ⟨rfl, fun other => ?_, fun ready => ⟨ready.master, ready.slave, ready.lower, ready.upper⟩, rfl, rfl⟩
    rcases Nat.lt_or_ge other 8 with small | high
    · rw [if_neg (by omega), Pics.mem_denied_lower small, Pics.mem_denied_lower small]
    · rcases Nat.lt_or_ge other 16 with far | outside
      · rw [Pics.mem_denied_upper high far, Pics.mem_denied_upper high far, Pic.Masked,
          changes short (show other - 8 < 8 by omega), place]
        by_cases same : other = irq.toNat
        · rw [if_pos (by omega), if_pos same]
          exact (and_iff_left far).symm
        · rw [if_neg (by omega), if_neg same]
          exact Iff.rfl
      · -- Behind the last line nothing is masked.
        have none : ∀ pics : Pics, other ∉ pics.denied := fun pics among => absurd (Pics.lt_of_denied among) (by omega)
        rw [iff_false_left (none _)]
        split_ifs
        · omega
        · exact none pics

/-- Taking a line into service takes it off the ones that wait, and changes nothing else. -/
theorem Pics.waiting_take_master (low : line < 8) :
    ({ pics with master := pics.master.take line } : Pics).waiting = pics.waiting.erase line := by
  -- The line is below eight, so that it is only among those of the first controller.
  refine lines_ext (fun _ => Pics.lt_of_waiting) (fun _ among => Pics.lt_of_waiting (Finset.mem_of_mem_erase among))
    (fun other small => ?_) fun other high far => ?_
  · rw [Pics.mem_waiting_lower small, Finset.mem_erase, Pics.mem_waiting_lower small]
    exact Finset.mem_erase
  · rw [Pics.mem_waiting_upper high far, Finset.mem_erase, Pics.mem_waiting_upper high far]
    exact (and_iff_right (by omega)).symm

theorem Pics.waiting_take_slave (low : line < 8) :
    ({ pics with slave := pics.slave.take line } : Pics).waiting = pics.waiting.erase (8 + line) := by
  -- The line has the number eight more on the desk than at its controller.
  refine lines_ext (fun _ => Pics.lt_of_waiting) (fun _ among => Pics.lt_of_waiting (Finset.mem_of_mem_erase among))
    (fun other small => ?_) fun other high far => ?_
  · rw [Pics.mem_waiting_lower small, Finset.mem_erase, Pics.mem_waiting_lower small]
    exact (and_iff_right (by omega)).symm
  · rw [Pics.mem_waiting_upper high far, Finset.mem_erase, Pics.mem_waiting_upper high far]
    refine Finset.mem_erase.trans (and_congr_left fun _ => ?_)
    omega

/-- Controllers that are ready stay so when a line is taken. -/
theorem Pics.Ready.take_master (ready : pics.Ready) : ({ pics with master := pics.master.take line } : Pics).Ready :=
  ⟨ready.master, ready.slave, fun _ among => ready.lower _ (Finset.mem_of_mem_erase among), ready.upper⟩

theorem Pics.Ready.take_slave (ready : pics.Ready) : ({ pics with slave := pics.slave.take line } : Pics).Ready :=
  ⟨ready.master, ready.slave, ready.lower, fun _ among => ready.upper _ (Finset.mem_of_mem_erase among)⟩

/-- The second controller is seen on line 2 of the first one while it signals. -/
theorem Pics.mem_wired :
    line ∈ pics.wired ↔
      line ∈ pics.master.requests ∨ (line = 2 ∧ (pics.slave.signal pics.slave.requests).isSome) := by
  rw [Pics.wired]
  -- The slave wakes line 2 of the master when it has a line to signal.
  split_ifs with signals
  · rw [Finset.mem_insert]
    tauto
  · tauto

end

section

variable {sys after : InterruptSystem} {line : Nat}

/-- The open lines of the two controllers. -/
theorem InterruptSystem.open_lower (low : line < 8) :
    sys.desk.Open line ↔ line ∈ sys.pics.master.requests ∧ ¬ sys.pics.master.Masked line := by
  -- A lower line is decided by the master alone.
  have waits : line ∈ sys.desk.waiting ↔ _ := Pics.mem_waiting_lower low
  have denied : line ∈ sys.desk.denied ↔ _ := Pics.mem_denied_lower low
  rw [InterruptDesk.Open, waits, denied]
  exact and_congr_right fun _ => and_iff_left (by omega)

theorem InterruptSystem.open_upper (high : 8 ≤ line) (inside : line < 16) :
    sys.desk.Open line ↔
      line - 8 ∈ sys.pics.slave.requests ∧ ¬ sys.pics.slave.Masked (line - 8) ∧ ¬ sys.pics.master.Masked 2 := by
  -- An upper line needs its own bit in the slave and line 2 open in the master.
  have waits : line ∈ sys.desk.waiting ↔ _ := Pics.mem_waiting_upper high inside
  have denied : line ∈ sys.desk.denied ↔ _ := Pics.mem_denied_upper high inside
  have passes : 2 ∈ sys.desk.denied ↔ _ := Pics.mem_denied_lower (by decide)
  rw [InterruptDesk.Open, waits, denied, passes]
  exact and_congr_right fun _ => and_congr_right fun _ => ⟨fun through => through high, fun through _ => through⟩

/-- Open lines have numbers. -/
theorem InterruptSystem.lt_of_open (opens : sys.desk.Open line) : line < 16 := Pics.lt_of_waiting opens.1

/-- The second controller signals the first one of the upper lines. -/
theorem InterruptSystem.firstUpper_iff (none : sys.pics.slave.service = ∅) (high : 8 ≤ line) :
    sys.desk.FirstUpper line ↔ sys.pics.slave.signal sys.pics.slave.requests = some (line - 8) := by
  have upper : ∀ other, 8 ≤ other → (other ∈ sys.desk.waiting ∧ other ∉ sys.desk.denied ↔
      other < 16 ∧ other - 8 ∈ sys.pics.slave.requests ∧ ¬ sys.pics.slave.Masked (other - 8)) := by
    intro other above
    by_cases far : other < 16
    · have waits : other ∈ sys.desk.waiting ↔ _ := Pics.mem_waiting_upper above far
      have denied : other ∈ sys.desk.denied ↔ _ := Pics.mem_denied_upper above far
      rw [waits, denied]
      exact (and_iff_right far).symm
    · exact ⟨fun waits => absurd (Pics.lt_of_waiting waits.1) far, fun inside => absurd inside.1 far⟩
  rw [InterruptDesk.FirstUpper, Pic.signal_eq_some none]
  constructor
  · rintro ⟨⟨-, waits⟩, first⟩
    obtain ⟨far, requested, free⟩ := (upper line high).mp waits
    refine ⟨by omega, ⟨requested, free⟩, fun other before among => ?_⟩
    -- An earlier line that waits must be masked, or it would come first.
    by_contra unmasked
    have found := (upper (8 + other) (by omega)).mpr
      ⟨by omega, by rwa [Nat.add_sub_cancel_left], by rwa [Nat.add_sub_cancel_left]⟩
    have := first (8 + other) (by omega) found.1 found.2
    omega
  · rintro ⟨small, requested, first⟩
    refine ⟨⟨high, (upper line high).mpr ⟨by omega, requested⟩⟩, fun other above waits free => ?_⟩
    by_contra before
    obtain ⟨far, among, unmasked⟩ := (upper other above).mp ⟨waits, free⟩
    exact unmasked (first (other - 8) (by omega) among)

/-- Where the first controller signals nothing, nothing is open. -/
theorem InterruptSystem.none_open (sound : sys.Sound) (running : sys.turn = .running)
    (quiet : sys.pics.master.signal sys.pics.wired = .none) : ∀ line, ¬ sys.desk.Open line := by
  have service := sound.service
  rw [InterruptSystem.InService, running] at service
  have masked := (Pic.signal_eq_none service.1).mp quiet
  intro line opens
  rcases Nat.lt_or_ge line 8 with low | high
  · obtain ⟨waits, free⟩ := (InterruptSystem.open_lower low).mp opens
    exact free (masked line low (Pics.mem_wired.mpr (.inl waits)))
  · -- An upper line makes the second controller signal, which the first one would see on line 2.
    have small := InterruptSystem.lt_of_open opens
    obtain ⟨waits, free, passes⟩ := (InterruptSystem.open_upper high small).mp opens
    refine passes (masked 2 (by decide) (Pics.mem_wired.mpr (.inr ⟨rfl, ?_⟩)))
    by_contra silent
    exact free ((Pic.signal_eq_none service.2).mp (Option.not_isSome_iff_eq_none.mp silent) _ (by omega) waits)

/-- The line that the first controller signals is the first one, or the first one is an upper line. -/
theorem InterruptSystem.first_of_signal (sound : sys.Sound) (running : sys.turn = .running)
    (signals : sys.pics.master.signal sys.pics.wired = some line) :
    (line ≠ 2 ∧ line < 8 ∧ sys.desk.First line) ∨ (line = 2 ∧ ∃ upper, 8 ≤ upper ∧ sys.desk.First upper) := by
  have service := sound.service
  rw [InterruptSystem.InService, running] at service
  obtain ⟨low, ⟨waits, free⟩, first⟩ := (Pic.signal_eq_some service.1).mp signals
  -- Open lines come no earlier than the signalled one, wherever they are.
  have later : ∀ other, sys.desk.Open other → if other < 8 then line ≤ other else line ≤ 2 := by
    intro other opens
    split_ifs with small
    · by_contra before
      obtain ⟨among, unmasked⟩ := (InterruptSystem.open_lower small).mp opens
      exact unmasked (first other (by omega) (Pics.mem_wired.mpr (.inl among)))
    · by_contra before
      have far := InterruptSystem.lt_of_open opens
      obtain ⟨among, unmasked, passes⟩ := (InterruptSystem.open_upper (by omega) far).mp opens
      refine passes (first 2 (by omega) (Pics.mem_wired.mpr (.inr ⟨rfl, ?_⟩)))
      by_contra silent
      exact unmasked ((Pic.signal_eq_none service.2).mp (Option.not_isSome_iff_eq_none.mp silent) _ (by omega) among)
  -- The signal is the master's own line or the one that the slave is wired to.
  rcases Pics.mem_wired.mp waits with own | ⟨rfl, upper⟩
  · have device := sound.ready.lower line own
    refine .inl ⟨device.2, low, (InterruptSystem.open_lower low).mpr ⟨own, free⟩, fun other opens => ?_⟩
    have behind := later other opens
    have far := InterruptSystem.lt_of_open opens
    have other_device : other < 8 → other ≠ 2 := fun small =>
      (sound.ready.lower other ((InterruptSystem.open_lower small).mp opens).1).2
    simp only [linePlace]
    split_ifs at behind ⊢ <;> omega
  · -- The slave signals its lowest open line, and all of them come in the place of line 2.
    obtain ⟨inner, found⟩ := Option.isSome_iff_exists.mp upper
    obtain ⟨small, ⟨among, unmasked⟩, least⟩ := (Pic.signal_eq_some service.2).mp found
    refine .inr ⟨rfl, 8 + inner, by omega, ?_, fun other opens => ?_⟩
    · refine (InterruptSystem.open_upper (by omega) (by omega)).mpr ?_
      rw [Nat.add_sub_cancel_left]
      exact ⟨among, unmasked, free⟩
    · have behind := later other opens
      have far := InterruptSystem.lt_of_open opens
      have other_device : other < 8 → other ≠ 2 := fun small =>
        (sound.ready.lower other ((InterruptSystem.open_lower small).mp opens).1).2
      have upper_least : 8 ≤ other → inner ≤ other - 8 := by
        intro above
        by_contra before
        obtain ⟨waiting, free, -⟩ := (InterruptSystem.open_upper above far).mp opens
        exact free (least (other - 8) (by omega) waiting)
      simp only [linePlace]
      split_ifs at behind ⊢ <;> omega

/-- Taking an interrupt serves the first open line, or asks for it. -/
theorem accept_simulates (sound : sys.Sound) (running : sys.turn = .running) :
    InterruptSystem.Sound { sys with turn := sys.pics.accept.1, pics := sys.pics.accept.2 } ∧
      DeskStep sys.desk .accept
        (InterruptSystem.desk { sys with turn := sys.pics.accept.1, pics := sys.pics.accept.2 }) := by
  have service := sound.service
  rw [InterruptSystem.InService, running] at service
  obtain ⟨-, offset, cascade⟩ := sound.ready.master
  rw [Pics.accept]
  cases signals : sys.pics.master.signal sys.pics.wired with
  | none =>
    have vector : sys.pics.master.offset.toNat + 7 = 39 := by rw [offset]; rfl
    simp only [vector]
    exact ⟨⟨sound.ready, by decide, by decide, .inl service.1, service.2⟩,
      .acceptNone running (InterruptSystem.none_open sound running signals)⟩
  | some line =>
    -- Line 2 is the only one behind which there is another controller.
    have low := ((Pic.signal_eq_some service.1).mp signals).1
    have single : ({ sys.pics with master := sys.pics.master.take line } : Pics).master.service = {line} := by
      show insert line sys.pics.master.service = _
      rw [service.1]
      rfl
    have waiting := @Pics.waiting_take_master sys.pics line low
    simp only [cascade, sound.ready.slave.2.2, offset]
    rcases InterruptSystem.first_of_signal sound running signals with ⟨device, -, first⟩ | ⟨rfl, upper, high, first⟩
    · rw [if_neg fun asked => device asked.2.symm]
      refine ⟨⟨sound.ready.take_master, by show 32 ≤ 32 + line; omega, by show 32 + line < 48; omega,
        .inr ⟨line, low, single⟩, ?_⟩, ?_⟩
      · show if 32 + line < 40 then _ else _
        rw [if_pos (by omega)]
        exact service.2
      · have same : InterruptSystem.desk
            ⟨⟨sys.pics.master.take line, sys.pics.slave⟩, .handling (32 + line), sys.devices⟩ = sys.desk.serve line :=
          congrArg (InterruptDesk.mk · sys.pics.denied (.handling (32 + line))) waiting
        exact same ▸ DeskStep.acceptLower running first low
    · rw [if_pos (by decide)]
      refine ⟨⟨sound.ready.take_master, single, service.2⟩, ?_⟩
      -- No device waits on line 2, so that nothing is taken off the desk.
      have absent : 2 ∉ sys.pics.waiting := fun waits =>
        (sound.ready.lower 2 ((Pics.mem_waiting_lower (by decide)).mp waits)).2 rfl
      rw [Finset.erase_eq_of_notMem absent] at waiting
      have same : InterruptSystem.desk ⟨⟨sys.pics.master.take 2, sys.pics.slave⟩, .asking, sys.devices⟩ =
          { sys.desk with turn := .asking } :=
        congrArg (InterruptDesk.mk · sys.pics.denied .asking) waiting
      exact same ▸ DeskStep.acceptUpper running first high

/-- Asking the second controller serves the first of the upper lines. -/
theorem answer_simulates (sound : sys.Sound) (asking : sys.turn = .asking) :
    InterruptSystem.Sound { sys with turn := sys.pics.answer.1, pics := sys.pics.answer.2 } ∧
      DeskStep sys.desk .answer
        (InterruptSystem.desk { sys with turn := sys.pics.answer.1, pics := sys.pics.answer.2 }) := by
  have service := sound.service
  rw [InterruptSystem.InService, asking] at service
  -- The first controller has the line in service over which the second one is wired.
  have below : sys.pics.master.Single := .inr ⟨2, by decide, service.1⟩
  have offset := sound.ready.slave.2.1
  rw [Pics.answer]
  cases signals : sys.pics.slave.signal sys.pics.slave.requests with
  | none =>
    -- Without a line of its own the second controller answers with its last vector, and serves nothing.
    have vector : sys.pics.slave.offset.toNat + 7 = 47 := by rw [offset]; rfl
    simp only [vector]
    refine ⟨⟨sound.ready, by decide, by decide, below, .inl service.2⟩, .answerNone asking fun line first => ?_⟩
    have found := (InterruptSystem.firstUpper_iff service.2 first.1.1).mp first
    rw [signals] at found
    cases found
  | some line =>
    -- A line that it signals is the first upper one that gets through.
    have low := ((Pic.signal_eq_some service.2).mp signals).1
    have single : (sys.pics.slave.take line).service = {line} := by
      show insert line sys.pics.slave.service = _
      rw [service.2]
      rfl
    have first : sys.desk.FirstUpper (8 + line) := by
      rw [InterruptSystem.firstUpper_iff service.2 (by omega), Nat.add_sub_cancel_left]
      exact signals
    have vector : sys.pics.slave.offset.toNat + line = 32 + (8 + line) := by rw [offset]; show 40 + line = _; omega
    simp only [vector]
    refine ⟨⟨sound.ready.take_slave, by show 32 ≤ 32 + (8 + line); omega, by show 32 + (8 + line) < 48; omega, below,
      ?_⟩, ?_⟩
    · -- The vector of an upper line is not below 40, so that both controllers have one in service.
      show if 32 + (8 + line) < 40 then _ else _
      rw [if_neg (by omega)]
      exact .inr ⟨line, low, single⟩
    · have same : InterruptSystem.desk
          ⟨⟨sys.pics.master, sys.pics.slave.take line⟩, .handling (32 + (8 + line)), sys.devices⟩ =
            sys.desk.serve (8 + line) :=
        congrArg (InterruptDesk.mk · sys.pics.denied (.handling (32 + (8 + line)))) (Pics.waiting_take_slave low)
      exact same ▸ DeskStep.answer asking first

section

variable {inb : Nat → UInt8}

/-- No driver talks to the controllers. -/
theorem driverDispatchIrq_sent (irq : UInt8) (devices : Devices) :
    (driverDispatchIrq (driverSubsystemInit (linkedDrivers inb)) irq devices).sent = devices.sent := by
  -- The handlers read ports and push bytes, and none of them writes to a controller.
  have mouse : ∀ seen : Devices, (mouseIrqHandler inb irq seen).sent = seen.sent := by
    intro seen
    rw [mouseIrqHandler]
    split_ifs <;> rfl
  exact mouse _

/-- The handler of a vector comes back, and tells the controllers that served the interrupt. -/
theorem isrHandler_sent {vector : Nat} (hardware : 32 ≤ vector ∧ vector < 48) (devices : Devices) :
    ∃ after, isrHandler noHandlers (driverSubsystemInit (linkedDrivers inb)) vector { devices with sent := [] } =
        .ok after ∧
      after.sent = if vector < 40 then [(0x20, 0x20)] else [(0xA0, 0x20), (0x20, 0x20)] := by
  have low : (UInt8.ofNat (vector - 32)).toNat = vector - 32 := by
    rw [UInt8.toNat_ofNat']
    exact Nat.mod_eq_of_lt (by omega)
  refine ⟨driversPicSendEoi (UInt8.ofNat (vector - 32)) (driverDispatchIrq (driverSubsystemInit (linkedDrivers inb))
    (UInt8.ofNat (vector - 32)) { devices with sent := [] }), ?_, ?_⟩
  · rw [isrHandler, if_neg (by omega), if_neg (by omega)]
    simp only [noHandlers, if_pos hardware.2]
  · rw [driversPicSendEoi]
    -- The second controller is told for the vectors of its lines only.
    by_cases upper : (8 : UInt8) ≤ UInt8.ofNat (vector - 32)
    · have high := UInt8.le_iff_toNat_le.mp upper
      rw [low] at high
      rw [if_pos upper, if_neg (by change 8 ≤ _ at high; omega)]
      show (driverDispatchIrq _ _ _).sent ++ _ ++ _ = _
      rw [driverDispatchIrq_sent]
      rfl
    · have high := mt UInt8.le_iff_toNat_le.mpr upper
      rw [low] at high
      rw [if_neg upper, if_pos (by change ¬ 8 ≤ _ at high; omega)]
      show (driverDispatchIrq _ _ _).sent ++ _ = _
      rw [driverDispatchIrq_sent]
      rfl

/-- The end of a handler leaves nothing in service. -/
theorem finish_clears (sound : sys.Sound) {vector : Nat} (handling : sys.turn = .handling vector) :
    ∃ devices, interruptStep inb sys .finish =
      some ⟨⟨{ sys.pics.master with service := ∅ }, { sys.pics.slave with service := ∅ }⟩, .running, devices⟩ := by
  have service := sound.service
  rw [InterruptSystem.InService, handling] at service
  obtain ⟨lowest, highest, single, other⟩ := service
  obtain ⟨after, ran, sent⟩ := @isrHandler_sent inb vector ⟨lowest, highest⟩ sys.devices
  refine ⟨after, ?_⟩
  simp only [interruptStep, handling]
  rw [handleInterrupt, ran]
  show some (InterruptSystem.mk (after.sent.foldl Pics.write sys.pics) .running after) = _
  rw [sent]
  split_ifs at other ⊢ with lower
  · -- The second controller has nothing in service as it is.
    have kept : sys.pics.slave = { sys.pics.slave with service := ∅ } := by rw [← other]
    show some (InterruptSystem.mk ⟨sys.pics.master.command picEoi, sys.pics.slave⟩ .running after) = _
    rw [Pic.command_eoi single, ← kept]
  · show some (InterruptSystem.mk ⟨sys.pics.master.command picEoi, sys.pics.slave.command picEoi⟩ .running after) = _
    rw [Pic.command_eoi single, Pic.command_eoi other]

/-- Events that touch neither what is in service nor the processor keep the system sound. -/
theorem InterruptSystem.Sound.of_pics {pics : Pics} (sound : sys.Sound) (ready : sys.pics.Ready → pics.Ready)
    (master : pics.master.service = sys.pics.master.service) (slave : pics.slave.service = sys.pics.slave.service) :
    InterruptSystem.Sound { sys with pics := pics } := by
  refine ⟨ready sound.ready, ?_⟩
  -- Service and readiness are read from the controllers only.
  have service := sound.service
  rw [InterruptSystem.InService] at service ⊢
  simp only [Pic.Single, master, slave]
  exact service

/-- Two desks with the same lines, in the same turn. -/
theorem InterruptDesk.same {one two : InterruptDesk} (waiting : ∀ line, line ∈ one.waiting ↔ line ∈ two.waiting)
    (denied : ∀ line, line ∈ one.denied ↔ line ∈ two.denied) (turn : one.turn = two.turn) : one = two := by
  -- Two desks are equal field by field, their sets of lines by membership.
  obtain ⟨lines, masked, here⟩ := one
  obtain rfl : lines = two.waiting := Finset.ext waiting
  obtain rfl : masked = two.denied := Finset.ext denied
  obtain rfl : here = two.turn := turn
  rfl

/-- Every step of the system is one at the desk. -/
theorem interruptStep_simulates {event : InterruptEvent} (sound : sys.Sound)
    (step : InterruptStep inb sys event after) : after.Sound ∧ DeskStep sys.desk event after.desk := by
  rw [InterruptStep] at step
  -- One case for each event: what it does to the waiting and the denied lines is what the desk says.
  cases event with
  | raise line =>
    obtain ⟨pics, wired, rfl⟩ := Option.map_eq_some_iff.mp step
    obtain ⟨device, waiting, denied, ready, master, slave⟩ := @Pics.wire_eq_some _ _ _ _ True _
      (fun lines line other => by rw [Finset.mem_insert]; by_cases same : other = line <;> simp [same]) wired
    refine ⟨sound.of_pics ready master slave, ?_⟩
    -- Among the lines of the desk the one that asks is added, and no other one changes.
    have same : InterruptSystem.desk { sys with pics := pics } =
        { sys.desk with waiting := insert line sys.desk.waiting } := by
      refine InterruptDesk.same (fun other => (waiting other).trans ?_) (Finset.ext_iff.mp denied) rfl
      rw [Finset.mem_insert]
      by_cases same : other = line <;> simp [same, InterruptSystem.desk]
    exact same ▸ .raise device
  | withdraw line =>
    obtain ⟨pics, wired, rfl⟩ := Option.map_eq_some_iff.mp step
    obtain ⟨device, waiting, denied, ready, master, slave⟩ := @Pics.wire_eq_some _ _ _ _ False _
      (fun lines line other => by rw [Finset.mem_erase]; by_cases same : other = line <;> simp [same]) wired
    refine ⟨sound.of_pics ready master slave, ?_⟩
    -- The line that no longer asks is taken out.
    have same : InterruptSystem.desk { sys with pics := pics } =
        { sys.desk with waiting := sys.desk.waiting.erase line } := by
      refine InterruptDesk.same (fun other => (waiting other).trans ?_) (Finset.ext_iff.mp denied) rfl
      rw [Finset.mem_erase]
      by_cases same : other = line <;> simp [same, InterruptSystem.desk]
    exact same ▸ .withdraw device
  | accept =>
    -- The processor accepts while it runs, and the answer then says which line it was.
    rw [interruptStep] at step
    split_ifs at step with running
    obtain rfl := Option.some.inj step
    exact accept_simulates sound running
  | answer =>
    rw [interruptStep] at step
    split_ifs at step with asking
    obtain rfl := Option.some.inj step
    exact answer_simulates sound asking
  | finish =>
    cases handling : sys.turn with
    -- Only a handler can finish.
    | running => simp [interruptStep, handling] at step
    | asking => simp [interruptStep, handling] at step
    | handling vector =>
      obtain ⟨devices, clears⟩ := @finish_clears sys inb sound vector handling
      rw [clears] at step
      obtain rfl := Option.some.inj step
      refine ⟨⟨⟨sound.ready.master, sound.ready.slave, sound.ready.lower, sound.ready.upper⟩, rfl, rfl⟩, ?_⟩
      exact .finish handling
  | mask irq =>
    -- The handlers run with the lines that were allowed, and masking one is a write to the register of its
    -- controller.
    rw [interruptStep] at step
    split_ifs at step with allowed
    obtain rfl := Option.some.inj step
    rw [Pics.write_mask sound.ready]
    obtain ⟨waiting, denied, ready, master, slave⟩ :=
      @Pics.remask_spec sys.pics (fun mask bit => mask ||| bit) true irq allowed.2 or_picBit
    refine ⟨sound.of_pics ready master slave, ?_⟩
    have same : InterruptSystem.desk { sys with pics := sys.pics.remask (fun mask bit => mask ||| bit) irq } =
        { sys.desk with denied := if irq < 16 then insert irq.toNat sys.desk.denied else sys.desk.denied } := by
      refine InterruptDesk.same (Finset.ext_iff.mp waiting) (fun other => (denied other).trans ?_) rfl
      -- Behind line 15 there is no bit, so that nothing is masked.
      by_cases few : irq < 16
      · have low : irq.toNat < 16 := UInt8.lt_iff_toNat_lt.mp few
        rw [if_pos few, Finset.mem_insert]
        by_cases same : other = irq.toNat
        · simp [same, low]
        · simp [same, InterruptSystem.desk]
      · have high : ¬ irq.toNat < 16 := fun low => few (UInt8.lt_iff_toNat_lt.mpr low)
        rw [if_neg few]
        split_ifs with same
        · exact ⟨fun inside => absurd inside.2 (same ▸ high),
            fun among => absurd (Pics.lt_of_denied among) (same ▸ high)⟩
        · exact Iff.rfl
    exact same ▸ .mask allowed.1
  | unmask irq =>
    -- As for masking, with the bit cleared.
    rw [interruptStep] at step
    split_ifs at step with allowed
    obtain rfl := Option.some.inj step
    rw [Pics.write_unmask sound.ready]
    obtain ⟨waiting, denied, ready, master, slave⟩ :=
      @Pics.remask_spec sys.pics (fun mask bit => mask &&& ~~~ bit) false irq allowed.2 and_picBit
    refine ⟨sound.of_pics ready master slave, ?_⟩
    have same : InterruptSystem.desk { sys with pics := sys.pics.remask (fun mask bit => mask &&& ~~~ bit) irq } =
        { sys.desk with denied := sys.desk.denied.erase irq.toNat } := by
      refine InterruptDesk.same (Finset.ext_iff.mp waiting) (fun other => (denied other).trans ?_) rfl
      rw [Finset.mem_erase]
      by_cases same : other = irq.toNat <;> simp [same, InterruptSystem.desk]
    exact same ▸ .unmask allowed.1

/-- Controllers that are initialised with some masks, and have nothing in service, are sound. -/
theorem initialised_sound {pics : Pics} {mask : UInt8} (devices : Devices)
    (written : pics = ⟨⟨0, 0x20, 0x04, mask, ∅, ∅⟩, ⟨0, 0x28, 0x02, mask, ∅, ∅⟩⟩) :
    InterruptSystem.Sound ⟨pics, .running, devices⟩ := by
  subst written
  -- Nothing waits and nothing is in service, so that all that is left are the numbers of the initialisation.
  refine ⟨⟨⟨rfl, rfl, rfl⟩, ⟨rfl, rfl, rfl⟩, ?_, ?_⟩, rfl, rfl⟩
  · intro line among
    exact absurd among (Finset.notMem_empty line)
  · intro line among
    exact absurd among (Finset.notMem_empty line)

section

variable {before : Pics} (idle : before.master.service = ∅ ∧ before.slave.service = ∅) (devices : Devices)

include idle

/-- The initialisation in isr.c: no line waits and none is masked. -/
theorem picRemap_sound : InterruptSystem.Sound ⟨picRemap.foldl Pics.write before, .running, devices⟩ ∧
    InterruptSystem.desk ⟨picRemap.foldl Pics.write before, .running, devices⟩ = ⟨∅, ∅, .running⟩ := by
  -- The four words of each controller are followed by a mask without a bit.
  have written : picRemap.foldl Pics.write before =
      ⟨⟨0, 0x20, 0x04, 0, ∅, before.master.service⟩, ⟨0, 0x28, 0x02, 0, ∅, before.slave.service⟩⟩ := rfl
  rw [idle.1, idle.2] at written
  refine ⟨initialised_sound devices written, ?_⟩
  rw [written]
  refine InterruptDesk.same (fun line => ?_) (fun line => ?_) rfl
  · simp [InterruptSystem.desk, Pics.waiting]
  · simp [InterruptSystem.desk, Pics.denied, Pic.Masked]

/-- The one in pic.c: all lines are masked. -/
theorem picInit_sound : InterruptSystem.Sound ⟨picInit.foldl Pics.write before, .running, devices⟩ ∧
    InterruptSystem.desk ⟨picInit.foldl Pics.write before, .running, devices⟩ = ⟨∅, Finset.range 16, .running⟩ := by
  -- Here the mask has every bit.
  have written : picInit.foldl Pics.write before =
      ⟨⟨0, 0x20, 0x04, 0xFF, ∅, before.master.service⟩, ⟨0, 0x28, 0x02, 0xFF, ∅, before.slave.service⟩⟩ := rfl
  rw [idle.1, idle.2] at written
  refine ⟨initialised_sound devices written, ?_⟩
  have denied : Pics.denied ⟨⟨0, 0x20, 0x04, 0xFF, ∅, ∅⟩, ⟨0, 0x28, 0x02, 0xFF, ∅, ∅⟩⟩ = Finset.range 16 := by decide
  rw [written]
  refine InterruptDesk.same (fun line => ?_) (Finset.ext_iff.mp denied) rfl
  simp [InterruptSystem.desk, Pics.waiting]

end

/-- The processor is never stuck: it can take an interrupt, ask for its vector, and the handler comes back. -/
theorem InterruptSystem.Sound.goes_on (sound : sys.Sound) :
    ∃ event ∈ [InterruptEvent.accept, .answer, .finish], ∃ after, InterruptStep inb sys event after := by
  -- The turn says which event is next, and a handler always comes back.
  cases turn : sys.turn with
  | running => exact ⟨.accept, by simp, _, if_pos turn⟩
  | asking => exact ⟨.answer, by simp, _, if_pos turn⟩
  | handling vector =>
    obtain ⟨devices, clears⟩ := @finish_clears sys inb sound vector turn
    exact ⟨.finish, by simp, _, clears⟩

/--
Over every interleaving of devices that ask or no longer do, of taking and handling interrupts and of masking lines,
the controllers as isr.c initialises them and as the handlers answer them do what the desk does: each interrupt comes
in under the vector of the first line that waits and gets through, and none is blocked by an earlier one. The processor
never gets stuck.
-/
theorem controllers_refine_desk {before : Pics} {devices : Devices} {events : List InterruptEvent}
    {final : InterruptSystem} (idle : before.master.service = ∅ ∧ before.slave.service = ∅)
    (run : Run (InterruptStep inb) ⟨picRemap.foldl Pics.write before, .running, devices⟩ events final) :
    Run DeskStep ⟨∅, ∅, .running⟩ events final.desk ∧
      ∃ event ∈ [InterruptEvent.accept, .answer, .finish], ∃ after, InterruptStep inb final event after := by
  obtain ⟨sound, desk⟩ := picRemap_sound idle devices
  -- The remapped controllers are sound with an empty desk, and every step simulates one of the desk.
  obtain ⟨kept, refined⟩ := run.refines InterruptSystem.Sound InterruptSystem.desk interruptStep_simulates sound
  rw [desk] at refined
  exact ⟨refined, kept.goes_on⟩

/-- Controllers as they are before they are initialised. -/
def rawPics : Pics := ⟨⟨0, 0, 0, 0, ∅, ∅⟩, ⟨0, 0, 0, 0, ∅, ∅⟩⟩

/-- The system before the first interrupt. -/
def bootedSystem : InterruptSystem := ⟨picRemap.foldl Pics.write rawPics, .running, freshDevices⟩

/-- A device on line 12 asks, and is answered with its vector. -/
theorem upper_line_answered :
    ∃ final, Run (InterruptStep fun _ => 0) bootedSystem [.raise 12, .accept, .answer] final ∧
      Run DeskStep ⟨∅, ∅, .running⟩ [.raise 12, .accept, .answer] final.desk ∧ final.turn = .handling 44 := by
  -- The three events are run once, and the rest is read from the state they end in.
  have turns : ([InterruptEvent.raise 12, .accept, .answer].foldlM (interruptStep fun _ => 0) bootedSystem).map
      InterruptSystem.turn = some (.handling 44) := by decide
  obtain ⟨final, took, turn⟩ := Option.map_eq_some_iff.mp turns
  have run : Run (InterruptStep fun _ => 0) bootedSystem _ final := Run.of_foldlM took
  exact ⟨final, run, (controllers_refine_desk ⟨rfl, rfl⟩ run).1, turn⟩

end

end

end MiraOS

import Mathlib.Data.Finset.Card
import Mathlib.Logic.Function.Basic
import Mathlib.Order.Interval.Finset.Nat

/-! Memory behind a translation of addresses, in pages of 4096 bytes. -/

namespace Machine

/-- Memory, and the place in it that an address stands for. -/
@[ext]
structure AddressSpace where
  memory : Nat → UInt8
  translate : Nat → Option Nat

namespace AddressSpace

/-- The byte at an address, if it is mapped. -/
def read (space : AddressSpace) (address : Nat) : Option UInt8 :=
  (space.translate address).map space.memory

/-- Store a byte at an address, if it is mapped. -/
def store (space : AddressSpace) (address : Nat) (byte : UInt8) : Option AddressSpace :=
  (space.translate address).map fun place =>
    { space with memory := Function.update space.memory place byte }

/-- Let the page of an address stand for a frame. -/
def mapPage (space : AddressSpace) (virt frame : Nat) : AddressSpace :=
  { space with
    translate := fun address =>
      if address / 4096 = virt / 4096 then some (frame + address % 4096) else space.translate address }

/-- Bytes at consecutive places of memory. -/
def fill (space : AddressSpace) (start count : Nat) (content : Nat → UInt8) : AddressSpace :=
  { space with
    memory := fun place =>
      if start ≤ place ∧ place < start + count then content (place - start) else space.memory place }

/-- An address shows a byte that is kept in one of some frames. -/
def Shows (space : AddressSpace) (frames : List Nat) (address : Nat) (byte : UInt8) : Prop :=
  ∃ frame ∈ frames, ∃ place, place < 4096 ∧ space.translate address = some (frame + place) ∧
    space.memory (frame + place) = byte

section

variable {space other : AddressSpace} {frames : List Nat} {address : Nat} {byte : UInt8}

/-- What an address shows is read there. -/
theorem Shows.read (visible : space.Shows frames address byte) : space.read address = some byte := by
  -- The byte that is shown is the one its frame holds.
  obtain ⟨frame, -, place, -, mapped, kept⟩ := visible
  rw [AddressSpace.read, mapped, Option.map_some, kept]

/-- An address shows the same byte where neither its translation nor the frames have changed. -/
theorem Shows.congr {more : List Nat} (visible : space.Shows frames address byte)
    (mapped : other.translate address = space.translate address)
    (kept : ∀ frame ∈ frames, frame ∈ more ∧
      ∀ place, place < 4096 → other.memory (frame + place) = space.memory (frame + place)) :
    other.Shows more address byte := by
  obtain ⟨frame, member, place, small, here, value⟩ := visible
  -- The frame is still there and holds the same bytes.
  obtain ⟨still, same⟩ := kept frame member
  exact ⟨frame, still, place, small, mapped.trans here, (same place small).trans value⟩

/-- A place that was filled has its byte. -/
theorem fill_inside (space : AddressSpace) (start : Nat) {count offset : Nat} (content : Nat → UInt8)
    (inside : offset < count) : (space.fill start count content).memory (start + offset) = content offset := by
  have place : start + offset - start = offset := by omega
  unfold fill
  dsimp only
  rw [if_pos (by omega), place]

/-- A place apart from those filled keeps its byte. -/
theorem fill_outside (space : AddressSpace) {start count place : Nat} (content : Nat → UInt8)
    (outside : place < start ∨ start + count ≤ place) :
    (space.fill start count content).memory place = space.memory place := by
  exact if_neg (by omega)

/-- Filling no bytes changes nothing. -/
theorem fill_zero (space : AddressSpace) (start : Nat) (content : Nat → UInt8) :
    space.fill start 0 content = space := by
  -- An empty range has no place to fill.
  have none : ∀ place, ¬ (start ≤ place ∧ place < start + 0) := by
    intro place
    omega
  simp only [fill, none, if_false]

/-- Filling one byte and then those behind it is filling them all. -/
theorem fill_succ (space : AddressSpace) (start count : Nat) (content : Nat → UInt8) :
    AddressSpace.fill { space with memory := Function.update space.memory start (content 0) } (start + 1)
      count (fun offset => content (offset + 1)) = space.fill start (count + 1) content := by
  unfold fill
  congr 1
  funext place
  dsimp only
  -- The first place was stored, the others are filled.
  by_cases here : place = start
  · subst here
    rw [if_neg (by omega), if_pos (by omega), Function.update_self, Nat.sub_self]
  · by_cases inside : start ≤ place ∧ place < start + (count + 1)
    · have offset : place - (start + 1) + 1 = place - start := by omega
      rw [if_pos (by omega), if_pos inside, offset]
    · rw [if_neg (by omega), if_neg inside, Function.update_of_ne here]

end

end AddressSpace

/-- There are no more distinct frames between two bounds than pages. -/
theorem frames_fit {frames : List Nat} {low high : Nat} (distinct : frames.Nodup)
    (whole : ∀ frame ∈ frames, frame % 4096 = 0)
    (inside : ∀ frame ∈ frames, low * 4096 ≤ frame ∧ frame + 4096 ≤ high) :
    frames.length ≤ high / 4096 - low := by
  -- Whole frames have different numbers, and these lie in the interval.
  have numbers : (frames.map (· / 4096)).Nodup := by
    apply distinct.map_on
    intro one member two other same
    have oneWhole := whole one member
    have twoWhole := whole two other
    omega
  have between : (frames.map (· / 4096)).toFinset ⊆ Finset.Ico low (high / 4096) := by
    intro number member
    obtain ⟨frame, among, rfl⟩ := List.mem_map.mp (List.mem_toFinset.mp member)
    obtain ⟨above, below⟩ := inside frame among
    exact Finset.mem_Ico.mpr ⟨by omega, by omega⟩
  have count := Finset.card_le_card between
  rw [List.toFinset_card_of_nodup numbers, List.length_map, Nat.card_Ico] at count
  exact count

end Machine

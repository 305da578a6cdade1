import MiraOS.Machine.Bytes
import Mathlib.Data.List.Nodup

/-! Singly linked lists whose links are words inside the memory they manage. -/

namespace Machine

/-- The list of nodes found by following the links from a head, where zero ends the list. -/
def Chain (mem : Memory) : Nat → List Nat → Prop
  | head, [] => head = 0
  | head, node :: rest => head = node ∧ node ≠ 0 ∧ Chain mem (read64 mem node) rest

/-- A chain depends only on the links of its nodes. -/
theorem Chain.frame {mem other : Memory} {head : Nat} {nodes : List Nat} (chain : Chain mem head nodes)
    (same : ∀ node ∈ nodes, ∀ byte, node ≤ byte → byte < node + 8 → other byte = mem byte) :
    Chain other head nodes := by
  -- Every node on the way is read through its own link, which is unchanged.
  induction nodes generalizing head with
  | nil => exact chain
  | cons node rest ih =>
    obtain ⟨first, nonzero, tail⟩ := chain
    have link : read64 other node = read64 mem node := readLE_congr (same node List.mem_cons_self)
    refine ⟨first, nonzero, ?_⟩
    rw [link]
    exact ih tail (fun next member => same next (List.mem_cons_of_mem _ member))

/-- A chain with a head other than zero has a first node. -/
theorem Chain.cons_of_ne {mem : Memory} {head : Nat} {nodes : List Nat} (chain : Chain mem head nodes)
    (nonzero : head ≠ 0) : ∃ rest, nodes = head :: rest ∧ Chain mem (read64 mem head) rest := by
  -- A head that is not null starts a chain that is not empty.
  cases nodes with
  | nil => exact absurd chain nonzero
  | cons node rest =>
    obtain ⟨rfl, _, tail⟩ := chain
    exact ⟨rest, rfl, tail⟩

/-- Nodes at equal distances. -/
def stride (base size : Nat) (count : Nat) : List Nat := (List.range count).map fun i => base + i * size

/-- Membership in a list of nodes at equal distances. -/
theorem mem_stride {base size count node : Nat} :
    node ∈ stride base size count ↔ ∃ i, i < count ∧ node = base + i * size := by
  simp [stride, eq_comm]

/-- Nodes at a positive distance are all different. -/
theorem stride_nodup {base size : Nat} (positive : 0 < size) (count : Nat) :
    (stride base size count).Nodup := by
  -- Equal nodes are at equal multiples of the distance.
  refine List.Nodup.map (fun one two same => ?_) List.nodup_range
  have product : one * size = two * size := by
    have : base + one * size = base + two * size := same
    omega
  exact Nat.eq_of_mul_eq_mul_right positive product

/-- The loop that links nodes at equal distances, each to the next one. -/
def linkStride (mem : Memory) (base size count : Nat) : Memory :=
  (List.range count).foldl (fun mem i => write64 mem (base + i * size) (base + (i + 1) * size)) mem

/-- Linking some nodes writes only inside their links. -/
theorem linkStride_outside {mem : Memory} {base size count byte : Nat}
    (outside : ∀ i, i < count → byte < base + i * size ∨ base + i * size + 8 ≤ byte) :
    linkStride mem base size count byte = mem byte := by
  -- The last link written is apart from the byte, and so are the earlier ones.
  induction count with
  | zero => rfl
  | succ count ih =>
    rw [linkStride, List.range_succ, List.foldl_append, List.foldl_cons, List.foldl_nil, write64,
      writeLE_outside (outside count (by omega))]
    exact ih (fun i small => outside i (by omega))

/-- Each linked node points to the next one. -/
theorem read64_linkStride {mem : Memory} {base size count i : Nat} (wide : 8 ≤ size)
    (fits : base + count * size < 2 ^ 64) (small : i < count) :
    read64 (linkStride mem base size count) (base + i * size) = base + (i + 1) * size := by
  -- The turn of the loop that wrote the link is the last one or an earlier one.
  induction count with
  | zero => omega
  | succ count ih =>
    rw [linkStride, List.range_succ, List.foldl_append, List.foldl_cons, List.foldl_nil]
    by_cases last : i = count
    · rw [last, read64_write64 fits]
    · -- Earlier links lie before the one written last.
      have before : i + 1 ≤ count := by omega
      have apart : base + i * size + 8 ≤ base + count * size := by
        have := Nat.mul_le_mul_right size before
        rw [Nat.add_mul] at this
        omega
      have kept : read64 (write64 (linkStride mem base size count) (base + count * size)
          (base + (count + 1) * size)) (base + i * size) =
          read64 (linkStride mem base size count) (base + i * size) :=
        readLE_writeLE_apart (.inl apart)
      have smaller : base + count * size < 2 ^ 64 := by
        rw [Nat.add_mul] at fits
        omega
      exact kept.trans (ih smaller before)

/-- The first of several nodes at equal distances. -/
theorem stride_succ (base size count : Nat) :
    stride base size (count + 1) = base :: stride (base + size) size count := by
  rw [stride, List.range_succ_eq_map, List.map_cons, List.map_map]
  -- The later nodes are those of the stride that starts one step on.
  refine congrArg₂ List.cons (by simp) (List.map_congr_left fun i _ => ?_)
  simp only [Function.comp, Nat.succ_eq_add_one]
  ring

/-- Nodes whose links run through equal distances and end with zero form a chain. -/
theorem chain_stride {mem : Memory} {size : Nat} (count : Nat) {base : Nat} (positive : 0 < base)
    (links : ∀ i, i < count → read64 mem (base + i * size) = base + (i + 1) * size)
    (last : read64 mem (base + count * size) = 0) :
    Chain mem base (stride base size (count + 1)) := by
  -- Each step of the induction moves the base along by one node.
  induction count generalizing base with
  | zero =>
    rw [stride_succ]
    exact ⟨rfl, by omega, by simpa [stride, Chain] using last⟩
  | succ count ih =>
    have first : read64 mem base = base + size := by simpa using links 0 (by omega)
    rw [stride_succ]
    refine ⟨rfl, by omega, ?_⟩
    rw [first]
    refine ih (by omega) (fun i small => ?_) ?_
    · have moved : base + size + i * size = base + (i + 1) * size := by ring
      rw [moved, links (i + 1) (by omega)]
      ring
    · have moved : base + size + count * size = base + (count + 1) * size := by ring
      rw [moved]
      exact last

end Machine

import Mathlib.Data.List.Nodup
import Mathlib.Logic.Function.Basic

/-! Lists of items with a key each, read as finite maps. -/

namespace Machine

section

variable {α κ : Type} [DecidableEq κ] (key : α → κ)

/-- The first item of a key. -/
def keyed (items : List α) (wanted : κ) : Option α := items.find? (key · = wanted)

/-- Change the items of a key. -/
def changeKey (wanted : κ) (change : α → α) (items : List α) : List α :=
  items.map fun item => if key item = wanted then change item else item

/-- Leave out the items of a key. -/
def dropKey (wanted : κ) (items : List α) : List α := items.filter (key · ≠ wanted)

variable {key} {items : List α} {wanted : κ}

/-- No item is found exactly when the key does not occur. -/
theorem keyed_eq_none : keyed key items wanted = none ↔ wanted ∉ items.map key := by
  simp [keyed, List.find?_eq_none]

/-- The position of the first item of a key is found exactly when the key occurs. -/
theorem findIdx?_key_eq_none :
    items.findIdx? (key · = wanted) = none ↔ wanted ∉ items.map key := by
  simp [List.findIdx?_eq_none_iff]

/-- The item at the position of the first item of a key. -/
theorem getElem?_of_findIdx? {index : Nat} (found : items.findIdx? (key · = wanted) = some index) :
    ∃ item, items[index]? = some item ∧ key item = wanted ∧ keyed key items wanted = some item := by
  -- The item found is the one at the position found, since nothing before it has the key.
  obtain ⟨inside, here, before⟩ := List.findIdx?_eq_some_iff_getElem.mp found
  refine ⟨items[index], List.getElem?_eq_getElem inside, by simpa using here, ?_⟩
  rw [keyed, List.find?_eq_some_iff_getElem]
  exact ⟨here, index, inside, rfl, fun i earlier => by simpa using before i earlier⟩

/-- With distinct keys, the item of a key is the one that is found under it. -/
theorem keyed_of_mem (distinct : (items.map key).Nodup) {item : α} (listed : item ∈ items) :
    keyed key items (key item) = some item := by
  induction items with
  | nil => exact absurd listed List.not_mem_nil
  | cons first rest ih =>
    rw [List.map_cons, List.nodup_cons] at distinct
    rcases List.mem_cons.mp listed with rfl | later
    · exact List.find?_cons_of_pos (by simp)
    · -- The first item has another key, which occurs in no later item.
      have other : key first ≠ key item := fun same => distinct.1 (same ▸ List.mem_map_of_mem later)
      rw [keyed, List.find?_cons_of_neg (by simpa using other)]
      exact ih distinct.2 later

/-- Changing the items of a key that does not occur changes nothing. -/
theorem changeKey_absent (absent : wanted ∉ items.map key) (change : α → α) :
    changeKey key wanted change items = items := by
  -- No item has the key, so no item is changed.
  have same : ∀ item ∈ items, (if key item = wanted then change item else item) = id item := by
    intro item among
    exact if_neg fun here : key item = wanted => absent (here ▸ List.mem_map_of_mem among)
  rw [changeKey, List.map_congr_left same, List.map_id]

/-- Leaving out a key that does not occur changes nothing. -/
theorem dropKey_absent (absent : wanted ∉ items.map key) : dropKey key wanted items = items := by
  refine List.filter_eq_self.mpr fun item among => ?_
  simpa using fun here : key item = wanted => absent (here ▸ List.mem_map_of_mem among)

/-- The first position of a key, where the first item has another one. -/
theorem findIdx?_key_cons {first : α} {rest : List α} {index : Nat} (other : key first ≠ wanted)
    (found : (first :: rest).findIdx? (key · = wanted) = some index) :
    ∃ later, index = later + 1 ∧ rest.findIdx? (key · = wanted) = some later := by
  -- The first key is another one, so the search goes on behind it.
  rw [List.findIdx?_cons, if_neg (by simpa using other)] at found
  obtain ⟨later, there, next⟩ := Option.map_eq_some_iff.mp found
  exact ⟨later, next.symm, there⟩

/-- With distinct keys, changing the item at the first position of a key changes the items of the
key. -/
theorem set_findIdx? (distinct : (items.map key).Nodup) {index : Nat} {item : α}
    (found : items.findIdx? (key · = wanted) = some index) (here : items[index]? = some item)
    (change : α → α) : items.set index (change item) = changeKey key wanted change items := by
  induction items generalizing index with
  | nil => simp at found
  | cons first rest ih =>
    rw [List.map_cons, List.nodup_cons] at distinct
    by_cases same : key first = wanted
    · -- The key occurs in no later item.
      obtain rfl : index = 0 := by simpa [List.findIdx?_cons, same] using found.symm
      obtain rfl : first = item := by simpa using here
      have others : changeKey key wanted change rest = rest :=
        changeKey_absent (same ▸ distinct.1) change
      rw [List.set_cons_zero]
      simpa [changeKey, same] using others.symm
    · -- The first item stays, and the position is one less in the rest.
      obtain ⟨later, rfl, there⟩ := findIdx?_key_cons same found
      have rested := ih distinct.2 there (by simpa using here)
      rw [List.set_cons_succ, rested, changeKey, changeKey, List.map_cons, if_neg same]

/-- With distinct keys, taking out the item at the first position of a key leaves out the key. -/
theorem eraseIdx_findIdx? (distinct : (items.map key).Nodup) {index : Nat}
    (found : items.findIdx? (key · = wanted) = some index) :
    items.eraseIdx index = dropKey key wanted items := by
  induction items generalizing index with
  | nil => simp at found
  | cons first rest ih =>
    rw [List.map_cons, List.nodup_cons] at distinct
    by_cases same : key first = wanted
    · -- The key occurs in no later item, so only this one goes.
      obtain rfl : index = 0 := by simpa [List.findIdx?_cons, same] using found.symm
      have others : dropKey key wanted rest = rest := dropKey_absent (same ▸ distinct.1)
      rw [List.eraseIdx_cons_zero, dropKey, List.filter_cons_of_neg (by simpa using same)]
      exact others.symm
    · obtain ⟨later, rfl, there⟩ := findIdx?_key_cons same found
      rw [List.eraseIdx_cons_succ, ih distinct.2 there, dropKey, dropKey,
        List.filter_cons_of_pos (by simpa using same)]

/-- A change that keeps keys keeps the list of keys. -/
theorem changeKey_keys {change : α → α} (kept : ∀ item, key (change item) = key item) :
    (changeKey key wanted change items).map key = items.map key := by
  rw [changeKey, List.map_map]
  refine List.map_congr_left fun item _ => ?_
  rw [Function.comp_apply]
  -- An item that is changed keeps its key.
  split_ifs
  · exact kept item
  · rfl

/-- Changing the items of a key changes what is found under it and nothing else. -/
theorem keyed_changeKey {change : α → α} (kept : ∀ item, key (change item) = key item) (other : κ) :
    keyed key (changeKey key wanted change items) other =
      if other = wanted then (keyed key items wanted).map change else keyed key items other := by
  -- A changed item answers every test of its key as before, so the same item is found.
  have same : ∀ item, key (if key item = wanted then change item else item) = key item := by
    intro item
    split_ifs
    · exact kept item
    · rfl
  rw [keyed, changeKey, List.find?_map]
  have tests : ((fun item => decide (key item = other)) ∘ fun item =>
      if key item = wanted then change item else item) = fun item => decide (key item = other) := by
    funext item
    simp only [Function.comp_apply, same]
  rw [tests]
  by_cases here : other = wanted
  · rw [if_pos here, here]
    change Option.map _ (keyed key items wanted) = _
    cases found : keyed key items wanted with
    | none => rfl
    | some item =>
      have named : key item = wanted := by simpa using List.find?_some found
      simp [named]
  · rw [if_neg here]
    change Option.map _ (keyed key items other) = _
    -- What is found under another key is not an item that was changed.
    cases found : keyed key items other with
    | none => rfl
    | some item =>
      have named : key item = other := by simpa using List.find?_some found
      simp [named, here]

/-- Leaving out a key leaves what is found under the others. -/
theorem keyed_dropKey (other : κ) :
    keyed key (dropKey key wanted items) other =
      if other = wanted then none else keyed key items other := by
  by_cases here : other = wanted
  · rw [if_pos here, keyed_eq_none, here, dropKey]
    simp
  · rw [if_neg here, keyed, dropKey, List.find?_filter, keyed]
    -- The two tests agree on every item: one of the other key is never left out.
    congr 1
    funext item
    by_cases named : key item = other
    · simp [named, here]
    · simp [named]

/-- Leaving out a key takes it out of the list of keys. -/
theorem dropKey_keys : (dropKey key wanted items).map key = (items.map key).filter (· ≠ wanted) := by
  rw [List.filter_map, dropKey]
  rfl

/-- One more item behind the others is found unless its key occurs before. -/
theorem keyed_append (last : α) (other : κ) :
    keyed key (items ++ [last]) other =
      (keyed key items other).or (if key last = other then some last else none) := by
  rw [keyed, List.find?_append, keyed]
  congr 1
  -- The last item answers only if nothing in front of it does.
  by_cases named : key last = other
  · simp [named]
  · simp [named]

/-- The first item of a key is the first of the items of the key. -/
theorem keyed_eq_head? : keyed key items wanted = (items.filter (key · = wanted)).head? :=
  List.head?_filter.symm

/-- Taking out the first item of a key takes it out of the items of the key only. -/
theorem filter_eraseP (other : κ) :
    (items.eraseP (key · = wanted)).filter (key · = other) =
      if other = wanted then (items.filter (key · = wanted)).tail
      else items.filter (key · = other) := by
  induction items with
  | nil => simp
  | cons first rest ih =>
    by_cases here : key first = wanted
    · -- The first item goes, which only the list of its own key sees.
      rw [List.eraseP_cons_of_pos (by simpa using here)]
      by_cases same : other = wanted
      · simp [same, here]
      · have apart : wanted ≠ other := Ne.symm same
        simp [same, here, apart]
    · -- The first item stays, and what goes is in the rest.
      rw [List.eraseP_cons_of_neg (by simpa using here), List.filter_cons, ih]
      by_cases same : other = wanted
      · simp [same, here]
      · simp [same, List.filter_cons]

end

end Machine

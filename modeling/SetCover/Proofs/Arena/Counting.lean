import Mathlib.Data.Set.Card
import SetCover.Arena

/-!
# The number of taken slots

An arena counts its values as they come and go.  The count stays that of the taken slots, so it never
drops below zero.
-/

namespace SetCover.Arena

variable {α : Type} {arena : Arena α} {value : α} {slot : Nat}

/-- The values in the order of their slots. -/
def values (arena : Arena α) : List α := arena.slots.toList.filterMap id

/-- The count is that of the taken slots. -/
def Counted (arena : Arena α) : Prop := arena.size = arena.values.length

theorem mem_values : value ∈ arena.values ↔ ∃ slot, arena.get? slot = some value := by
  simp only [values, List.mem_filterMap, id, get?, Option.join_eq_some_iff]
  constructor
  · rintro ⟨entry, hentry, rfl⟩
    obtain ⟨slot, hslot⟩ := List.mem_iff_getElem?.mp hentry
    exact ⟨slot, by simpa using hslot⟩
  · rintro ⟨slot, hslot⟩
    exact ⟨some value, List.mem_iff_getElem?.mpr ⟨slot, by simpa using hslot⟩, rfl⟩

/-- No value is in two slots. -/
def Injective (arena : Arena α) : Prop :=
  ∀ first second value, arena.get? first = some value → arena.get? second = some value →
    first = second

theorem Injective.nodup_values (h : arena.Injective) : arena.values.Nodup := by
  rw [values, List.nodup_iff_pairwise_ne, List.pairwise_filterMap, List.pairwise_iff_getElem]
  intro first second hfirst hsecond hlt value hvalue other hother heq
  have hread {slot : Nat} (hslot : slot < arena.slots.toList.length)
      (hentry : arena.slots.toList[slot] = some value) : arena.get? slot = some value := by
    have hslot : slot < arena.slots.size := by simpa using hslot
    rw [get?, Array.getElem?_eq_getElem hslot]
    simpa using hentry
  have hsame := h first second value (hread hfirst hvalue) (hread hsecond (heq ▸ hother))
  omega

theorem values_set {entries : List (Option α)} (hvacant : entries[slot]? = some none) :
    ((entries.set slot (some value)).filterMap id).Perm (value :: entries.filterMap id) := by
  induction entries generalizing slot with
  | nil => simp at hvacant
  | cons entry rest ih =>
    cases slot with
    | zero =>
      obtain rfl : entry = none := by simpa using hvacant
      exact List.Perm.refl _
    | succ slot =>
      have hrest := ih (by simpa using hvacant)
      cases entry with
      | none => simpa using hrest
      | some first => simpa using (hrest.cons first).trans (List.Perm.swap value first _)

theorem values_insert (arena : Arena α) (value : α) :
    (arena.insert value).values.Perm (value :: arena.values) := by
  have hvacant := arena.get?_vacancy
  rcases Nat.lt_or_ge arena.vacancy arena.slots.size with hlt | hge
  · have hentry : arena.slots.toList[arena.vacancy]? = some none := by
      simpa [get?, Array.getElem?_eq_getElem hlt] using hvacant
    simpa [values, insert, hlt] using values_set hentry
  · simp [values, insert, Nat.not_lt.mpr hge]

theorem values_release (hvalue : arena.get? slot = some value) :
    arena.values.Perm (value :: (arena.release slot).values) := by
  have hentry : arena.slots.toList[slot]? = some (some value) := by
    simpa [get?, Option.join_eq_some_iff] using hvalue
  obtain ⟨hlt, hread⟩ := List.getElem?_eq_some_iff.mp hentry
  have hvacant : (arena.slots.toList.set slot none)[slot]? = some none :=
    List.getElem?_set_self hlt
  have hperm := @values_set _ value _ _ hvacant
  rw [List.set_set, ← hread, List.set_getElem_self] at hperm
  simpa [values, release, hvalue, hread] using hperm

theorem counted_empty : (empty : Arena α).Counted := rfl

theorem Counted.insert (h : arena.Counted) (value : α) : (arena.insert value).Counted := by
  rw [Counted, (values_insert arena value).length_eq, List.length_cons, ← h]
  rfl

theorem Counted.release (h : arena.Counted) (slot : Nat) : (arena.release slot).Counted := by
  cases hvalue : arena.get? slot with
  | none => simpa [Arena.release, hvalue] using h
  | some value =>
    have hlength := (values_release hvalue).length_eq
    rw [List.length_cons, ← h] at hlength
    have hsize : (arena.release slot).size = arena.size - 1 := by simp [Arena.release, hvalue]
    rw [Counted, hsize]
    omega

theorem Counted.foldl_release (h : arena.Counted) (slots : List Nat) :
    (slots.foldl Arena.release arena).Counted := by
  induction slots generalizing arena with
  | nil => exact h
  | cons slot rest ih => exact ih (h.release slot)

theorem Counted.releaseFrom (h : arena.Counted) (start : Nat) :
    (arena.releaseFrom start).Counted :=
  h.foldl_release _

/-! ## Taken slots -/

theorem encard_taken_entries (entries : List (Option α)) :
    {slot : Nat | entries[slot]?.join ≠ none}.encard = (entries.filterMap id).length := by
  induction entries with
  | nil => simp
  | cons entry rest ih =>
    have hshift : (Nat.succ '' {slot : Nat | rest[slot]?.join ≠ none}).encard =
        (rest.filterMap id).length := by
      rw [Nat.succ_injective.encard_image, ih]
    cases entry with
    | none =>
      have htaken : {slot : Nat | (none :: rest)[slot]?.join ≠ none} =
          Nat.succ '' {slot : Nat | rest[slot]?.join ≠ none} := by
        ext slot
        cases slot <;> simp
      rw [htaken, hshift]
      rfl
    | some value =>
      have htaken : {slot : Nat | (some value :: rest)[slot]?.join ≠ none} =
          Insert.insert 0 (Nat.succ '' {slot : Nat | rest[slot]?.join ≠ none}) := by
        ext slot
        cases slot <;> simp
      rw [htaken, Set.encard_insert_of_notMem (by simp), hshift]
      simp

theorem encard_taken (arena : Arena α) :
    {slot | arena.get? slot ≠ none}.encard = arena.values.length := by
  have hentries := encard_taken_entries arena.slots.toList
  simp only [Array.getElem?_toList] at hentries
  exact hentries

theorem counted_iff : arena.Counted ↔ {slot | arena.get? slot ≠ none}.encard = arena.size := by
  rw [encard_taken, Nat.cast_inj, Counted, eq_comm]

theorem Counted.pos (h : arena.Counted) (htaken : arena.get? slot ≠ none) : 0 < arena.size := by
  obtain ⟨value, hvalue⟩ := Option.ne_none_iff_exists'.mp htaken
  rw [h]
  exact List.length_pos_of_mem (mem_values.mpr ⟨slot, hvalue⟩)

end SetCover.Arena

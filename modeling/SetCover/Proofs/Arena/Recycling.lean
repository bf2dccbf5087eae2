import SetCover.Proofs.Arena.Counting

/-!
# Arenas with spare slots

An arena that was emptied keeps its slots.  These are filled again from the lowest one up, in the order
in which an arena without slots gets new ones, so values come to lie in the same slots in both.
-/

namespace SetCover.Arena

variable {α : Type} {arena : Arena α} {value : α} {slot start spare : Nat}

/-- The arena with vacant slots after its last one. -/
def padded (arena : Arena α) (spare : Nat) : Arena α :=
  { arena with slots := arena.slots ++ Array.replicate spare none }

@[simp]
theorem padded_zero (arena : Arena α) : arena.padded 0 = arena := by
  simp [padded]

@[simp]
theorem firstVacant_padded (arena : Arena α) (spare : Nat) :
    (arena.padded spare).firstVacant = arena.firstVacant := rfl

@[simp]
theorem size_padded (arena : Arena α) (spare : Nat) : (arena.padded spare).size = arena.size := rfl

theorem size_slots_padded (arena : Arena α) (spare : Nat) :
    (arena.padded spare).slots.size = arena.slots.size + spare := by
  simp [padded]

@[simp]
theorem get?_padded (arena : Arena α) (spare : Nat) : (arena.padded spare).get? = arena.get? := by
  funext slot
  rw [get?, get?, padded, Array.getElem?_append]
  split
  · rfl
  · rename_i hslot
    rw [Array.getElem?_eq_none (Nat.le_of_not_lt hslot), Array.getElem?_replicate]
    split <;> rfl

/-! ## Filling slots -/

/-- The search for a vacant slot begins no later than after the last slot. -/
def Tight (arena : Arena α) : Prop := arena.firstVacant ≤ arena.slots.size

theorem tight_insert (arena : Arena α) (value : α) : (arena.insert value).Tight := by
  have hle := arena.vacancy_le
  change arena.vacancy + 1 ≤ (arena.insert value).slots.size
  unfold insert
  split
  · rwa [Array.size_setIfInBounds]
  · rw [Array.size_push]
    omega

theorem Tight.vacancy_padded (h : arena.Tight) (spare : Nat) :
    (arena.padded spare).vacancy = arena.vacancy := by
  have hsize : arena.slots.size + spare - arena.firstVacant =
      arena.slots.size - arena.firstVacant + spare := Nat.sub_add_comm h
  have hend : arena.firstVacant + (arena.slots.size - arena.firstVacant) = arena.slots.size :=
    Nat.add_sub_cancel' h
  rw [vacancy, vacancy, size_slots_padded, firstVacant_padded, get?_padded, hsize,
    ← List.range'_append_1, hend, List.find?_append]
  cases (List.range' arena.firstVacant (arena.slots.size - arena.firstVacant)).find? fun slot ↦
      (arena.get? slot).isNone with
  | some slot => rfl
  | none =>
    -- no slot of the arena itself is vacant, so the value goes to the first spare one, if there is one
    cases spare with
    | zero => rfl
    | succ spare => simp [List.range'_succ, get?]

/-- A value goes to the same slot, be it one of the arena itself, a new one or a spare one. -/
theorem Tight.exists_insert_padded (h : arena.Tight) (value : α) (spare : Nat) :
    ∃ rest, (arena.padded spare).insert value = (arena.insert value).padded rest := by
  rcases Nat.lt_or_ge arena.vacancy arena.slots.size with hlt | hge
  · refine ⟨spare, ?_⟩
    have hpadded : arena.vacancy < (arena.padded spare).slots.size := by
      rw [size_slots_padded]
      omega
    simp only [insert, h.vacancy_padded, if_pos hlt, if_pos hpadded, size_padded]
    simp only [padded, Array.setIfInBounds_append_left hlt]
  · have hvacancy : arena.vacancy = arena.slots.size := Nat.le_antisymm arena.vacancy_le hge
    cases spare with
    | zero => exact ⟨0, by rw [padded_zero, padded_zero]⟩
    | succ spare =>
      refine ⟨spare, ?_⟩
      have hpadded : arena.vacancy < (arena.padded (spare + 1)).slots.size := by
        rw [size_slots_padded]
        omega
      simp only [insert, h.vacancy_padded, if_neg (Nat.not_lt.mpr hge), if_pos hpadded, size_padded]
      simp [padded, hvacancy, List.replicate_succ, ← Array.toList_inj]

/-! ## Releasing slots -/

theorem release_of_vacant (h : arena.get? slot = none) : arena.release slot = arena := by
  rw [release, h]

theorem release_padded (arena : Arena α) (spare slot : Nat) :
    (arena.padded spare).release slot = (arena.release slot).padded spare := by
  unfold release
  rw [get?_padded]
  split
  · rfl
  · rename_i hvalue
    have hlt : slot < arena.slots.size :=
      Nat.lt_of_not_le fun hge ↦ by simp [get?, hge] at hvalue
    simp only [padded, Array.setIfInBounds_append_left hlt]

theorem foldl_release_padded (slots : List Nat) (arena : Arena α) (spare : Nat) :
    slots.foldl release (arena.padded spare) = (slots.foldl release arena).padded spare := by
  induction slots generalizing arena with
  | nil => rfl
  | cons slot rest ih => rw [List.foldl_cons, List.foldl_cons, release_padded, ih]

theorem foldl_release_of_vacant {slots : List Nat} (h : ∀ slot ∈ slots, arena.get? slot = none) :
    slots.foldl release arena = arena := by
  induction slots with
  | nil => rfl
  | cons slot rest ih =>
    rw [List.foldl_cons, release_of_vacant (h slot (by simp))]
    exact ih fun other hother ↦ h other (by simp [hother])

@[simp]
theorem size_slots_release (arena : Arena α) (slot : Nat) :
    (arena.release slot).slots.size = arena.slots.size := by
  unfold release
  split
  · rfl
  · exact Array.size_setIfInBounds

@[simp]
theorem size_slots_foldl_release (slots : List Nat) (arena : Arena α) :
    (slots.foldl release arena).slots.size = arena.slots.size := by
  induction slots generalizing arena with
  | nil => rfl
  | cons slot rest ih => rw [List.foldl_cons, ih, size_slots_release]

/-- Spare slots are vacant, so there is nothing to release in them. -/
theorem releaseFrom_padded (arena : Arena α) (hstart : start ≤ arena.slots.size) (spare : Nat) :
    (arena.padded spare).releaseFrom start = (arena.releaseFrom start).padded spare := by
  have hsize : arena.slots.size + spare - start = arena.slots.size - start + spare :=
    Nat.sub_add_comm hstart
  have hend : start + (arena.slots.size - start) = arena.slots.size := Nat.add_sub_cancel' hstart
  have hvacant : ∀ slot ∈ List.range' arena.slots.size spare,
      ((List.range' start (arena.slots.size - start)).foldl release arena).get? slot = none := by
    intro slot hslot
    have hle := (List.mem_range'_1.mp hslot).1
    rw [get?_foldl_release, get?, Array.getElem?_eq_none hle]
    simp
  simp only [releaseFrom, size_slots_padded, hsize, ← List.range'_append_1, hend, List.foldl_append,
    foldl_release_padded, foldl_release_of_vacant hvacant]
  rfl

theorem Tight.releaseFrom (h : arena.Tight) (start : Nat) : (arena.releaseFrom start).Tight := by
  have hsize : (arena.releaseFrom start).slots.size = arena.slots.size :=
    size_slots_foldl_release _ arena
  rw [Tight, hsize, firstVacant_releaseFrom]
  exact Nat.le_trans (Nat.min_le_left ..) h

/-- An emptied arena is one without slots but for its spare ones. -/
theorem Counted.releaseFrom_zero (h : arena.Counted) :
    arena.releaseFrom 0 = empty.padded arena.slots.size := by
  have hvacant (slot : Nat) : (arena.releaseFrom 0).get? slot = none := by
    rw [get?_releaseFrom, if_pos (Nat.zero_le slot)]
  have hsize : (arena.releaseFrom 0).size = 0 := by
    rw [h.releaseFrom 0, List.length_eq_zero_iff, List.eq_nil_iff_forall_not_mem]
    intro value hvalue
    obtain ⟨slot, hslot⟩ := mem_values.mp hvalue
    rw [hvacant] at hslot
    cases hslot
  have hslots : (arena.releaseFrom 0).slots = Array.replicate arena.slots.size none := by
    refine Array.ext (by simp [Arena.releaseFrom]) fun slot hslot _ ↦ ?_
    have hentry := hvacant slot
    rw [get?, Array.getElem?_eq_getElem hslot] at hentry
    simpa using hentry
  have hfirst : (arena.releaseFrom 0).firstVacant = 0 := Nat.min_zero _
  calc arena.releaseFrom 0
      = ⟨(arena.releaseFrom 0).slots, (arena.releaseFrom 0).firstVacant, (arena.releaseFrom 0).size⟩ :=
        rfl
    _ = empty.padded arena.slots.size := by
      rw [hslots, hfirst, hsize]
      simp [padded, empty]

end SetCover.Arena

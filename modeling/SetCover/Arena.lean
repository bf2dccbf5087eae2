import SetCover.Fault

/-!
# Arenas

An arena keeps values in numbered slots.  A value never moves, so its number stays good until the
slot is released, and released slots are filled again from the lowest one up.

The arena remembers a slot below which every slot is taken, which is where the search for the next
vacant slot begins.
-/

namespace SetCover

structure Arena (α : Type) where
  slots : Array (Option α)
  /-- No slot below this one is vacant. -/
  firstVacant : Nat
  /-- The number of taken slots. -/
  size : Nat
  deriving DecidableEq

namespace Arena

variable {α : Type}

def empty : Arena α := ⟨#[], 0, 0⟩

def get? (arena : Arena α) (slot : Nat) : Option α :=
  (arena.slots[slot]?).join

/-- The slot that the next value goes to: the first vacant one or, if none is, a new one. -/
def vacancy (arena : Arena α) : Nat :=
  ((List.range' arena.firstVacant (arena.slots.size - arena.firstVacant)).find? fun slot ↦
    (arena.get? slot).isNone).getD arena.slots.size

/-- Puts a value into the lowest vacant slot. -/
def insert (arena : Arena α) (value : α) : Arena α where
  slots :=
    if arena.vacancy < arena.slots.size then
      arena.slots.setIfInBounds arena.vacancy (some value)
    else
      arena.slots.push (some value)
  firstVacant := arena.vacancy + 1
  size := arena.size + 1

def release (arena : Arena α) (slot : Nat) : Arena α :=
  match arena.get? slot with
  | none => arena
  | some _ => { arena with slots := arena.slots.setIfInBounds slot none, size := arena.size - 1 }

/-- Vacates the given slot and all slots after it. -/
def releaseFrom (arena : Arena α) (start : Nat) : Arena α :=
  let slots := List.range' start (arena.slots.size - start)
  let released := slots.foldl release arena
  { released with firstVacant := Nat.min released.firstVacant start }

def fetch (arena : Arena α) (slot : Nat) : Except Fault α :=
  match arena.get? slot with
  | none => .error (.slotVacant slot)
  | some value => .ok value

def store (arena : Arena α) (slot : Nat) (value : α) : Except Fault (Arena α) :=
  match arena.get? slot with
  | none => .error (.slotVacant slot)
  | some _ => .ok { arena with slots := arena.slots.setIfInBounds slot (some value) }

@[simp]
theorem get?_empty (slot : Nat) : (empty : Arena α).get? slot = none := by
  simp [get?, empty]

theorem vacancy_le (arena : Arena α) : arena.vacancy ≤ arena.slots.size := by
  unfold vacancy
  cases hfound : (List.range' arena.firstVacant (arena.slots.size - arena.firstVacant)).find?
      fun slot ↦ (arena.get? slot).isNone with
  | none => exact Nat.le_refl _
  | some slot =>
    have hmem := List.mem_range'_1.mp (List.mem_of_find?_eq_some hfound)
    change slot ≤ arena.slots.size
    omega

theorem get?_vacancy (arena : Arena α) : arena.get? arena.vacancy = none := by
  unfold vacancy
  cases hfound : (List.range' arena.firstVacant (arena.slots.size - arena.firstVacant)).find?
      fun slot ↦ (arena.get? slot).isNone with
  | none => simp [get?]
  | some slot => simpa using List.find?_some hfound

theorem get?_insert (arena : Arena α) (value : α) (slot : Nat) :
    (arena.insert value).get? slot = if slot = arena.vacancy then some value else arena.get? slot := by
  have hle := arena.vacancy_le
  unfold insert get?
  by_cases hlt : arena.vacancy < arena.slots.size
  · by_cases heq : slot = arena.vacancy
    · simp [hlt, heq]
    · simp [hlt, heq, Array.getElem?_setIfInBounds_ne (Ne.symm heq)]
  · have hsize : arena.vacancy = arena.slots.size := by omega
    by_cases heq : slot = arena.vacancy
    · simp [hsize, heq]
    · simp only [hlt, if_false, heq, Array.getElem?_push]
      rw [if_neg (by omega)]

theorem get?_release (arena : Arena α) (released slot : Nat) :
    (arena.release released).get? slot = if slot = released then none else arena.get? slot := by
  unfold release
  split
  · rename_i hnone
    by_cases heq : slot = released
    · rw [if_pos heq, heq, hnone]
    · rw [if_neg heq]
  · by_cases heq : slot = released
    · by_cases hlt : released < arena.slots.size <;> simp [get?, heq, hlt]
    · simp [get?, heq, Array.getElem?_setIfInBounds_ne (Ne.symm heq)]

theorem get?_foldl_release (slots : List Nat) (arena : Arena α) (slot : Nat) :
    (slots.foldl release arena).get? slot = if slot ∈ slots then none else arena.get? slot := by
  induction slots generalizing arena with
  | nil => simp
  | cons first rest ih =>
    rw [List.foldl_cons, ih, get?_release]
    by_cases hmem : slot ∈ rest <;> by_cases heq : slot = first <;> simp [hmem, heq]

theorem get?_releaseFrom (arena : Arena α) (start slot : Nat) :
    (arena.releaseFrom start).get? slot = if start ≤ slot then none else arena.get? slot := by
  have hfold := get?_foldl_release (List.range' start (arena.slots.size - start)) arena slot
  have hkeep : (arena.releaseFrom start).get? slot =
      ((List.range' start (arena.slots.size - start)).foldl release arena).get? slot := rfl
  rw [hkeep, hfold]
  by_cases hle : start ≤ slot
  · by_cases hlt : slot < arena.slots.size
    · rw [if_pos (by simp only [List.mem_range'_1]; omega), if_pos hle]
    · rw [if_neg (by simp only [List.mem_range'_1]; omega), if_pos hle]
      simp [get?, Nat.le_of_not_lt hlt]
  · rw [if_neg (by simp only [List.mem_range'_1]; omega), if_neg hle]

@[simp]
theorem firstVacant_release (arena : Arena α) (slot : Nat) :
    (arena.release slot).firstVacant = arena.firstVacant := by
  unfold release
  split <;> rfl

theorem firstVacant_foldl_release (slots : List Nat) (arena : Arena α) :
    (slots.foldl release arena).firstVacant = arena.firstVacant := by
  induction slots generalizing arena with
  | nil => rfl
  | cons first rest ih => rw [List.foldl_cons, ih, firstVacant_release]

theorem firstVacant_releaseFrom (arena : Arena α) (start : Nat) :
    (arena.releaseFrom start).firstVacant = Nat.min arena.firstVacant start :=
  congrArg (Nat.min · start) (firstVacant_foldl_release _ arena)

end Arena

end SetCover

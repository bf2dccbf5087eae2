import Mathlib.Order.Lattice.Nat
import SetCover.Proofs.Arena.Counting

/-!
# What an arena holds

Values are put into an arena, read, overwritten and released from some slot on, in any order.  The arena
then holds a partial map from slots to values, in which a new value goes to the lowest slot without one.

The search for that slot begins where the arena remembers.  A slot before it is never vacant: the search
only passes over taken slots, and a release moves the beginning back to the first slot it vacates.
-/

namespace SetCover.Arena

variable {α : Type} {arena next : Arena α} {value : α} {slot start : Nat}

/-! ## The lowest vacant slot -/

/-- No slot before the one at which the search begins is vacant. -/
def Packed (arena : Arena α) : Prop :=
  ∀ slot < arena.firstVacant, arena.get? slot ≠ none

theorem packed_empty : (empty : Arena α).Packed := fun _ hslot ↦ absurd hslot (Nat.not_lt_zero _)

/-- The search passes over taken slots only. -/
theorem get?_ne_none_of_lt_vacancy (hfirst : arena.firstVacant ≤ slot)
    (hslot : slot < arena.vacancy) : arena.get? slot ≠ none := by
  have hsize := hslot.trans_le arena.vacancy_le
  unfold vacancy at hslot
  cases hfound : (List.range' arena.firstVacant (arena.slots.size - arena.firstVacant)).find?
      fun slot ↦ (arena.get? slot).isNone with
  | none =>
    have htaken := List.find?_eq_none.mp hfound slot (List.mem_range'_1.mpr (by omega))
    simpa using htaken
  | some found =>
    rw [hfound] at hslot
    have htaken := (List.find?_range'_eq_some.mp hfound).2.2 slot hfirst hslot
    simpa [Option.isSome_iff_ne_none] using htaken

theorem Packed.isLeast_vacancy (h : arena.Packed) :
    IsLeast {slot | arena.get? slot = none} arena.vacancy := by
  refine ⟨arena.get?_vacancy, fun slot hvacant ↦ Nat.le_of_not_lt fun hslot ↦ ?_⟩
  rcases Nat.lt_or_ge slot arena.firstVacant with hbefore | hfirst
  · exact h slot hbefore hvacant
  · exact get?_ne_none_of_lt_vacancy hfirst hslot hvacant

theorem Packed.insert (h : arena.Packed) (value : α) : (arena.insert value).Packed := by
  intro slot (hslot : slot < arena.vacancy + 1)
  rw [get?_insert]
  split
  · exact Option.some_ne_none value
  · rename_i hne
    exact fun hvacant ↦ hne (Nat.le_antisymm (Nat.le_of_lt_succ hslot) (h.isLeast_vacancy.2 hvacant))

theorem Packed.releaseFrom (h : arena.Packed) (start : Nat) : (arena.releaseFrom start).Packed := by
  intro slot hslot
  rw [firstVacant_releaseFrom] at hslot
  obtain ⟨hbefore, hstart⟩ := Nat.lt_min.mp hslot
  rw [get?_releaseFrom, if_neg (Nat.not_le.mpr hstart)]
  exact h slot hbefore

/-! ## Reading and overwriting -/

theorem fetch_of_taken (h : arena.get? slot = some value) : arena.fetch slot = .ok value := by
  rw [fetch, h]

theorem fetch_of_vacant (h : arena.get? slot = none) :
    arena.fetch slot = .error (.slotVacant slot) := by
  rw [fetch, h]

theorem store_of_vacant (h : arena.get? slot = none) :
    arena.store slot value = .error (.slotVacant slot) := by
  rw [store, h]

/-- Only the slot that is overwritten changes. -/
structure Stored (arena : Arena α) (slot : Nat) (value : α) (next : Arena α) : Prop where
  firstVacant_eq : next.firstVacant = arena.firstVacant
  size_eq : next.size = arena.size
  get?_eq : next.get? = Function.update arena.get? slot (some value)

theorem exists_store_of_taken {old : α} (h : arena.get? slot = some old) (value : α) :
    ∃ next, arena.store slot value = .ok next ∧ arena.Stored slot value next := by
  have hslot : slot < arena.slots.size :=
    Nat.lt_of_not_le fun hle ↦ by simp [get?, hle] at h
  have hstore : arena.store slot value =
      .ok { arena with slots := arena.slots.setIfInBounds slot (some value) } := by
    rw [store, h]
  refine ⟨_, hstore, rfl, rfl, funext fun other ↦ ?_⟩
  rw [Function.update_apply]
  split
  · rename_i heq
    subst heq
    simp [get?, hslot]
  · rename_i hne
    simp [get?, Array.getElem?_setIfInBounds_ne (Ne.symm hne)]

theorem Stored.packed (h : arena.Stored slot value next) (hpacked : arena.Packed) : next.Packed := by
  intro other hother
  rw [h.firstVacant_eq] at hother
  rw [h.get?_eq, Function.update_apply]
  split
  · exact Option.some_ne_none value
  · exact hpacked other hother

theorem Stored.counted (h : arena.Stored slot value next) (hcounted : arena.Counted)
    (htaken : arena.get? slot ≠ none) : next.Counted := by
  have hsame : {other | next.get? other ≠ none} = {other | arena.get? other ≠ none} := by
    ext other
    rw [Set.mem_ofPred_eq, Set.mem_ofPred_eq, h.get?_eq, Function.update_apply]
    split
    · rename_i heq
      exact iff_of_true (Option.some_ne_none value) (heq ▸ htaken)
    · rfl
  rw [counted_iff, hsame, h.size_eq]
  exact counted_iff.mp hcounted

/-! ## Requests -/

/-- What can be asked of an arena. -/
inductive Request (α : Type) where
  | insert (value : α)
  | releaseFrom (start : Nat)
  | fetch (slot : Nat)
  | store (slot : Nat) (value : α)

namespace Request

/-- The arena after a request, carried out or refused. -/
def after (request : Request α) (arena : Arena α) : Arena α :=
  match request with
  | insert value => arena.insert value
  | releaseFrom start => arena.releaseFrom start
  | fetch _ => arena
  | store slot value => (arena.store slot value).toOption.getD arena

/-- A partial map from slots to values after a request.  A new value goes to the lowest slot without
one, and what is stored replaces a value that is there. -/
noncomputable def revise (request : Request α) (held : Nat → Option α) : Nat → Option α :=
  match request with
  | insert value => Function.update held (sInf {slot | held slot = none}) (some value)
  | releaseFrom start => fun slot ↦ if slot < start then held slot else none
  | fetch _ => held
  | store slot value => Function.update held slot ((held slot).map fun _ ↦ value)

end Request

/-- The arena after several requests, each carried out or refused. -/
def afterAll (requests : List (Request α)) (arena : Arena α) : Arena α :=
  requests.foldl (fun arena request ↦ request.after arena) arena

/-- The partial map from slots to values that requests have made of the empty one. -/
noncomputable def heldAfter (requests : List (Request α)) : Nat → Option α :=
  requests.foldl (fun held request ↦ request.revise held) fun _ ↦ none

/-- The arena holds the values of a partial map. -/
structure Holds (arena : Arena α) (held : Nat → Option α) : Prop where
  packed : arena.Packed
  counted : arena.Counted
  get?_eq : arena.get? = held

theorem holds_empty : (empty : Arena α).Holds fun _ ↦ none where
  packed := packed_empty
  counted := counted_empty
  get?_eq := funext get?_empty

namespace Holds

variable {held : Nat → Option α}

theorem isLeast_vacancy (h : arena.Holds held) : IsLeast {slot | held slot = none} arena.vacancy := by
  rw [← h.get?_eq]
  exact h.packed.isLeast_vacancy

theorem insert (h : arena.Holds held) (value : α) :
    (arena.insert value).Holds (Function.update held arena.vacancy (some value)) where
  packed := h.packed.insert value
  counted := h.counted.insert value
  get?_eq := by
    funext slot
    rw [get?_insert, Function.update_apply, h.get?_eq]

theorem releaseFrom (h : arena.Holds held) (start : Nat) :
    (arena.releaseFrom start).Holds fun slot ↦ if slot < start then held slot else none where
  packed := h.packed.releaseFrom start
  counted := h.counted.releaseFrom start
  get?_eq := by
    funext slot
    rw [get?_releaseFrom, ← h.get?_eq, ← ite_not]
    exact if_congr Nat.not_le rfl rfl

theorem exists_store (h : arena.Holds held) {old : α} (hold : held slot = some old) (value : α) :
    ∃ next, arena.store slot value = .ok next ∧
      next.Holds (Function.update held slot (some value)) := by
  have htaken : arena.get? slot = some old := (congrFun h.get?_eq slot).trans hold
  obtain ⟨next, hstore, hnext⟩ := exists_store_of_taken htaken value
  refine ⟨next, hstore, hnext.packed h.packed, hnext.counted h.counted ?_, ?_⟩
  · rw [htaken]
    exact Option.some_ne_none old
  · rw [hnext.get?_eq, h.get?_eq]

/-- What one request changes. -/
theorem after (h : arena.Holds held) (request : Request α) :
    (request.after arena).Holds (request.revise held) := by
  cases request with
  | insert value =>
    rw [Request.revise, h.isLeast_vacancy.csInf_eq]
    exact h.insert value
  | releaseFrom start => exact h.releaseFrom start
  | fetch => exact h
  | store slot value =>
    rw [Request.after, Request.revise]
    cases hheld : held slot with
    | none =>
      rw [store_of_vacant ((congrFun h.get?_eq slot).trans hheld), Option.map_none, ← hheld,
        Function.update_eq_self]
      exact h
    | some old =>
      obtain ⟨next, hstore, hnext⟩ := h.exists_store hheld value
      rw [hstore]
      exact hnext

end Holds

/-- What requests have made of an arena. -/
theorem holds_afterAll (requests : List (Request α)) :
    (afterAll requests empty).Holds (heldAfter requests) := by
  induction requests using List.reverseRecOn with
  | nil => exact holds_empty
  | append_singleton requests request ih =>
    rw [afterAll, heldAfter, List.foldl_append, List.foldl_append]
    exact ih.after request

/-- What an arena does after any requests.  It holds the partial map that they describe, and its size is
the number of values in it.  A new value goes to the lowest slot without one.  A slot with a value can be
read and overwritten, any other one cannot, and trying to changes nothing.  A release from some slot on,
be it one of the arena or not, removes the values from there on and no others; as long as there is one
more to remove, the size is not zero. -/
theorem partialMap_afterAll (requests : List (Request α)) :
    let arena := afterAll requests empty
    let held := heldAfter requests
    arena.get? = held ∧ {slot | held slot ≠ none}.encard = arena.size ∧
    IsLeast {slot | held slot = none} arena.vacancy ∧
    (∀ value, (arena.insert value).get? = Function.update held arena.vacancy (some value)) ∧
    (∀ slot value, held slot = some value → arena.fetch slot = .ok value ∧
      ∀ other, ∃ next, arena.store slot other = .ok next ∧
        next.get? = Function.update held slot (some other)) ∧
    (∀ slot, held slot = none → arena.fetch slot = .error (.slotVacant slot) ∧
      (Request.fetch slot).after arena = arena ∧
      ∀ value, arena.store slot value = .error (.slotVacant slot) ∧
        (Request.store slot value).after arena = arena) ∧
    ∀ start, (arena.releaseFrom start).get? = (fun slot ↦ if slot < start then held slot else none) ∧
      ∀ stop, let released := (List.range' start (stop - start)).foldl release arena
        released.get? stop ≠ none → 0 < released.size := by
  intro arena held
  have h : arena.Holds held := holds_afterAll requests
  clear_value arena held
  obtain rfl : arena.get? = held := h.get?_eq
  refine ⟨rfl, counted_iff.mp h.counted, h.isLeast_vacancy, fun value ↦ (h.insert value).get?_eq,
    fun slot value hvalue ↦ ⟨fetch_of_taken hvalue, fun other ↦ ?_⟩,
    fun slot hvacant ↦ ⟨fetch_of_vacant hvacant, rfl, fun value ↦ ?_⟩,
    fun start ↦ ⟨(h.releaseFrom start).get?_eq, fun stop ↦ (h.counted.foldl_release _).pos⟩⟩
  · obtain ⟨next, hstore, hnext⟩ := h.exists_store hvalue other
    exact ⟨next, hstore, hnext.get?_eq⟩
  · have hstore : arena.store slot value = .error (.slotVacant slot) := store_of_vacant hvacant
    exact ⟨hstore, by rw [Request.after, hstore]; rfl⟩

/-- A value that comes after a release goes to the first slot that was vacated, and a slot that is vacant
again is not read. -/
theorem partialMap_afterAll_refilled :
    let requests : List (Request Nat) := [.insert 10, .insert 20, .insert 30, .store 1 21,
      .releaseFrom 2, .releaseFrom 9, .store 2 22, .insert 31, .insert 40, .fetch 5, .releaseFrom 3]
    let arena := afterAll requests empty
    arena.vacancy = 3 ∧ IsLeast {slot | heldAfter requests slot = none} 3 ∧
      {slot | heldAfter requests slot ≠ none}.encard = 3 ∧ arena.fetch 1 = .ok 21 ∧
      heldAfter requests 2 = some 31 ∧ arena.fetch 3 = .error (.slotVacant 3) := by
  intro requests arena
  obtain ⟨hheld, hsize, hlowest, -, htaken, hvacant, -⟩ := partialMap_afterAll requests
  have hread (slot : Nat) : heldAfter requests slot = arena.get? slot := (congrFun hheld slot).symm
  exact ⟨rfl, hlowest, hsize, (htaken 1 21 ((hread 1).trans rfl)).1, (hread 2).trans rfl,
    (hvacant 3 ((hread 3).trans rfl)).1⟩

end SetCover.Arena

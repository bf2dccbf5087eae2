import SetCover.Lines
import SetCover.Proofs.Links.Ring

/-!
# Linked lines

The lines of one axis are linked if their cells form disjoint rings of the counted length and the
active lines form an ascending ring that agrees with the flags.  This survives every change that the
table makes, and each of the two ways to take something out is undone exactly.
-/

namespace SetCover.Lines

open Links

variable {lines : Lines} {index other slot : Nat}

/-- The linkage of the lines of one axis. -/
structure Linked (lines : Lines) : Prop where
  countsSize : lines.counts.size = lines.size
  flagsSize : lines.flags.size = lines.size
  chainSize : lines.chain.before.size = lines.size + 1 ∧ lines.chain.after.size = lines.size + 1
  even : lines.rings.Even
  chain : lines.chain.IsRing lines.size lines.active
  ascending : lines.active.Pairwise (· < ·)
  flag : ∀ index, lines.isActive index = true ↔ index ∈ lines.active
  ring : ∀ index < lines.size, lines.rings.IsRing index ((lines.slots index).map lines.node)
  count : ∀ index < lines.size, lines.count index = (lines.slots index).length
  disjoint : ∀ first < lines.size, ∀ second < lines.size, ∀ slot ∈ lines.slots first,
    slot ∈ lines.slots second → first = second

theorem filter_ne_of_nodup {before after : List Nat} (hnodup : (before ++ index :: after).Nodup) :
    (before ++ index :: after).filter (· ≠ index) = before ++ after := by
  have hbefore : ∀ other ∈ before, other ≠ index := by grind
  have hafter : ∀ other ∈ after, other ≠ index := by grind
  rw [List.filter_append, List.filter_cons_of_neg (by simp)]
  rw [List.filter_eq_self.mpr (by simpa using hbefore)]
  rw [List.filter_eq_self.mpr (by simpa using hafter)]

theorem slots_eq_of_isRing {slots : List Nat}
    (h : lines.rings.IsRing index (slots.map lines.node)) : lines.slots index = slots := by
  rw [Lines.slots, h.ring_eq, List.map_map]
  exact List.map_id'' (fun slot ↦ Nat.add_sub_cancel_left lines.size slot) slots

namespace Linked

theorem holds_chain (h : lines.Linked) (hindex : index ≤ lines.size) :
    lines.chain.Holds index := by
  obtain ⟨hbefore, hafter⟩ := h.chainSize
  constructor <;> omega

theorem lt_size (h : lines.Linked) (hindex : index ∈ lines.active) : index < lines.size := by
  have hholds := (h.chain.holds index (by simp [hindex])).2
  have hne : index ≠ lines.size := by
    rintro rfl
    exact (List.nodup_cons.mp h.chain.nodup).1 hindex
  rw [h.chainSize.2] at hholds
  omega

theorem nodup_active (h : lines.Linked) : lines.active.Nodup :=
  (List.nodup_cons.mp h.chain.nodup).2

theorem nodup_slots (h : lines.Linked) (hindex : index < lines.size) :
    (lines.slots index).Nodup :=
  (List.nodup_cons.mp (h.ring index hindex).nodup).2.of_map _

theorem slotsBack_eq (h : lines.Linked) (hindex : index < lines.size) :
    lines.slotsBack index = (lines.slots index).reverse := by
  rw [slotsBack, (h.ring index hindex).ringBack_eq, ← List.map_reverse, List.map_map]
  exact List.map_id'' (fun slot ↦ Nat.add_sub_cancel_left lines.size slot) _

/-- The first active line leads the list of the active lines. -/
theorem first?_eq (h : lines.Linked) : lines.first? = lines.active.head? := by
  have hadjacent := h.chain.adjacent
  have hnodup := h.chain.nodup
  unfold first?
  cases hactive : lines.active with
  | nil =>
    rw [hactive] at hadjacent
    have hnext : lines.chain.next lines.size = lines.size :=
      (List.isChain_cons_cons.mp hadjacent).1.1
    simp [hnext]
  | cons first rest =>
    rw [hactive] at hadjacent hnodup
    have hnext : lines.chain.next lines.size = first := (List.isChain_cons_cons.mp hadjacent).1.1
    have hne : first ≠ lines.size := by
      rintro rfl
      exact (List.nodup_cons.mp hnodup).1 (by simp)
    simp [hnext, hne]

end Linked

/-! ## Active lines -/

theorem isActive_deactivate (hsize : lines.flags.size = lines.size) (hindex : index < lines.size) :
    (lines.deactivate index).isActive other =
      if other = index then false else lines.isActive other := by
  rcases eq_or_ne other index with rfl | hne
  · simp [deactivate, isActive, hsize, hindex]
  · simp [deactivate, isActive, hne, Ne.symm hne]

theorem Linked.isRing_deactivate (h : lines.Linked) (hindex : index ∈ lines.active) :
    (lines.deactivate index).chain.IsRing lines.size (lines.active.filter (· ≠ index)) := by
  have hring := h.chain
  have hnodup := h.nodup_active
  obtain ⟨before, after, hsplit⟩ := List.append_of_mem hindex
  rw [hsplit] at hring hnodup ⊢
  rw [filter_ne_of_nodup hnodup]
  exact hring.detach

theorem Linked.active_deactivate (h : lines.Linked) (hindex : index ∈ lines.active) :
    (lines.deactivate index).active = lines.active.filter (· ≠ index) :=
  (h.isRing_deactivate hindex).ring_eq

theorem Linked.deactivate (h : lines.Linked) (hindex : index ∈ lines.active) :
    (lines.deactivate index).Linked where
  countsSize := h.countsSize
  flagsSize := by simpa [Lines.deactivate] using h.flagsSize
  chainSize := by simpa [Lines.deactivate, Links.detach, Links.join] using h.chainSize
  even := h.even
  chain := by
    rw [h.active_deactivate hindex]
    exact h.isRing_deactivate hindex
  ascending := by
    rw [h.active_deactivate hindex]
    exact h.ascending.filter _
  flag other := by
    rw [h.active_deactivate hindex, isActive_deactivate h.flagsSize (h.lt_size hindex)]
    have hflag := h.flag other
    grind
  ring := h.ring
  count := h.count
  disjoint := h.disjoint

theorem setIfInBounds_self {α : Type} {entries : Array α} {value : α} (replaced : α)
    (hvalue : entries[index]? = some value) :
    (entries.setIfInBounds index replaced).setIfInBounds index value = entries := by
  refine Array.ext_getElem? fun other ↦ ?_
  rcases eq_or_ne other index with rfl | hne
  · obtain ⟨hlt, rfl⟩ := Array.getElem?_eq_some_iff.mp hvalue
    simp [hlt]
  · simp [Array.getElem?_setIfInBounds_ne (Ne.symm hne)]

/-- A line that is put back right after it was taken out leaves no trace. -/
theorem Linked.reactivate_deactivate (h : lines.Linked) (hindex : index ∈ lines.active) :
    (lines.deactivate index).reactivate index = lines := by
  have hflag : lines.flags[index]? = some true := by
    have hactive := (h.flag index).mpr hindex
    have hlt : index < lines.flags.size := h.flagsSize ▸ h.lt_size hindex
    simpa [isActive, hlt] using hactive
  simp only [Lines.deactivate, reactivate, setIfInBounds_self false hflag,
    h.chain.reattach_detach hindex]

/-! ## Cells taken out of their rings -/

theorem modify_modify_self {entries : Array Nat} (hpositive : 0 < entries.getD index 0) :
    (entries.modify index (· - 1)).modify index (· + 1) = entries := by
  refine Array.ext_getElem? fun other ↦ ?_
  rcases eq_or_ne index other with rfl | hne
  · rcases Nat.lt_or_ge index entries.size with hlt | hge
    · have hentry : 0 < entries[index] := by simpa [hlt] using hpositive
      simp [Array.getElem_modify, hlt, Nat.sub_add_cancel hentry]
    · simp [hge]
  · simp [Array.getElem?_modify, hne]

theorem count_drop (hindex : index < lines.counts.size) :
    (lines.drop index slot).count other =
      if other = index then lines.count index - 1 else lines.count other := by
  rcases eq_or_ne other index with rfl | hne
  · simp [drop, count, Array.getElem_modify, hindex]
  · simp [drop, count, Array.getElem?_modify, hne, Ne.symm hne]

namespace Linked

/-- Lines and cells are different nodes, and so are the cells of different lines. -/
theorem disjoint_rings (h : lines.Linked) (hindex : index < lines.size)
    (hother : other < lines.size) (hne : other ≠ index) :
    ∀ node ∈ index :: (lines.slots index).map lines.node,
      node ∉ other :: (lines.slots other).map lines.node := by
  intro node hnode hmem
  have hdisjoint := h.disjoint index hindex other hother
  simp only [List.mem_cons, List.mem_map, Lines.node] at hnode hmem
  grind

theorem filter_slots_of_ne (h : lines.Linked) (hindex : index < lines.size)
    (hslot : slot ∈ lines.slots index) (hother : other < lines.size) (hne : other ≠ index) :
    (lines.slots other).filter (· ≠ slot) = lines.slots other := by
  apply List.filter_eq_self.mpr
  intro kept hkept
  have hdisjoint := h.disjoint index hindex other hother slot hslot
  grind

theorem isRing_drop (h : lines.Linked) (hindex : index < lines.size)
    (hslot : slot ∈ lines.slots index) (hother : other < lines.size) :
    (lines.drop index slot).rings.IsRing other
      (((lines.slots other).filter (· ≠ slot)).map lines.node) := by
  have hring := h.ring index hindex
  have hnodup := h.nodup_slots hindex
  rcases eq_or_ne other index with rfl | hne
  · obtain ⟨before, after, hsplit⟩ := List.append_of_mem hslot
    rw [hsplit] at hring hnodup ⊢
    rw [filter_ne_of_nodup hnodup, List.map_append]
    rw [List.map_append, List.map_cons] at hring
    exact hring.detach
  · rw [h.filter_slots_of_ne hindex hslot hother hne]
    exact hring.detach_of_disjoint (List.mem_map_of_mem hslot) (h.ring other hother)
      (h.disjoint_rings hindex hother hne)

theorem slots_drop (h : lines.Linked) (hindex : index < lines.size)
    (hslot : slot ∈ lines.slots index) (hother : other < lines.size) :
    (lines.drop index slot).slots other = (lines.slots other).filter (· ≠ slot) :=
  slots_eq_of_isRing (h.isRing_drop hindex hslot hother)

theorem drop (h : lines.Linked) (hindex : index < lines.size) (hslot : slot ∈ lines.slots index) :
    (lines.drop index slot).Linked where
  countsSize := by simpa [Lines.drop] using h.countsSize
  flagsSize := h.flagsSize
  chainSize := h.chainSize
  even := by simpa [Lines.drop, Links.detach] using h.even
  chain := h.chain
  ascending := h.ascending
  flag := h.flag
  ring other hother := by
    rw [h.slots_drop hindex hslot hother]
    exact h.isRing_drop hindex hslot hother
  count other hother := by
    rw [count_drop (h.countsSize ▸ hindex), h.slots_drop hindex hslot hother,
      h.count index hindex, h.count other hother]
    rcases eq_or_ne other index with rfl | hne
    · have hnodup := h.nodup_slots hindex
      obtain ⟨before, after, hsplit⟩ := List.append_of_mem hslot
      rw [hsplit] at hnodup ⊢
      rw [filter_ne_of_nodup hnodup]
      simp
    · rw [if_neg hne, h.filter_slots_of_ne hindex hslot hother hne]
  disjoint first hfirst second hsecond kept hkept hmem := by
    rw [h.slots_drop hindex hslot hfirst] at hkept
    rw [h.slots_drop hindex hslot hsecond] at hmem
    exact h.disjoint first hfirst second hsecond kept (List.mem_of_mem_filter hkept)
      (List.mem_of_mem_filter hmem)

/-- A cell that is put back right after it was taken out leaves no trace. -/
theorem recover_drop (h : lines.Linked) (hindex : index < lines.size)
    (hslot : slot ∈ lines.slots index) : (lines.drop index slot).recover index slot = lines := by
  have hpositive : 0 < lines.counts.getD index 0 := by
    have hcount := h.count index hindex
    rw [Lines.count] at hcount
    rw [hcount]
    exact List.length_pos_of_mem hslot
  have hrings := (h.ring index hindex).reattach_detach (List.mem_map_of_mem hslot)
  rw [Lines.node] at hrings
  simp only [Lines.drop, recover, Lines.node, modify_modify_self hpositive, hrings]

end Linked

/-! ## Many cells at once -/

/-- Takes the cell in a slot out of the ring of its line, if there is a cell. -/
def dropAt (indexOf : Nat → Option Nat) (lines : Lines) (slot : Nat) : Lines :=
  (indexOf slot).elim lines fun index ↦ lines.drop index slot

/-- Puts the cell in a slot back into the ring of its line, if there is a cell. -/
def recoverAt (indexOf : Nat → Option Nat) (lines : Lines) (slot : Nat) : Lines :=
  (indexOf slot).elim lines fun index ↦ lines.recover index slot

/-- Takes the cells in the given slots out of the rings of their lines. -/
def dropAll (indexOf : Nat → Option Nat) (slots : List Nat) (lines : Lines) : Lines :=
  slots.foldl (dropAt indexOf) lines

/-- The cells in the given slots hang in the rings of their lines. -/
def Holds (lines : Lines) (indexOf : Nat → Option Nat) (slots : List Nat) : Prop :=
  ∀ slot ∈ slots, ∃ index < lines.size, indexOf slot = some index ∧ slot ∈ lines.slots index

variable {indexOf : Nat → Option Nat} {slots : List Nat}

@[simp]
theorem size_dropAt : (dropAt indexOf lines slot).size = lines.size := by
  unfold dropAt
  cases indexOf slot <;> rfl

@[simp]
theorem flags_dropAt : (dropAt indexOf lines slot).flags = lines.flags := by
  unfold dropAt
  cases indexOf slot <;> rfl

@[simp]
theorem size_dropAll : (dropAll indexOf slots lines).size = lines.size := by
  induction slots generalizing lines with
  | nil => rfl
  | cons slot rest ih => rw [dropAll, List.foldl_cons, ← dropAll, ih, size_dropAt]

@[simp]
theorem flags_dropAll : (dropAll indexOf slots lines).flags = lines.flags := by
  induction slots generalizing lines with
  | nil => rfl
  | cons slot rest ih => rw [dropAll, List.foldl_cons, ← dropAll, ih, flags_dropAt]

@[simp]
theorem isActive_dropAll : (dropAll indexOf slots lines).isActive index = lines.isActive index := by
  simp [isActive]

namespace Linked

theorem dropAt (h : lines.Linked) (hslots : lines.Holds indexOf [slot]) :
    (lines.dropAt indexOf slot).Linked := by
  obtain ⟨index, hindex, hlocated, hslot⟩ := hslots slot (by simp)
  simpa [Lines.dropAt, hlocated] using h.drop hindex hslot

theorem slots_dropAt (h : lines.Linked) (hslots : lines.Holds indexOf [slot])
    (hother : other < lines.size) :
    (lines.dropAt indexOf slot).slots other = (lines.slots other).filter (· ≠ slot) := by
  obtain ⟨index, hindex, hlocated, hslot⟩ := hslots slot (by simp)
  simpa [Lines.dropAt, hlocated] using h.slots_drop hindex hslot hother

theorem recoverAt_dropAt (h : lines.Linked) (hslots : lines.Holds indexOf [slot]) :
    (lines.dropAt indexOf slot).recoverAt indexOf slot = lines := by
  obtain ⟨index, hindex, hlocated, hslot⟩ := hslots slot (by simp)
  simpa [Lines.dropAt, recoverAt, hlocated] using h.recover_drop hindex hslot

/-- Taking one cell out leaves the others where they are. -/
theorem holds_dropAt (h : lines.Linked) (hnodup : (slot :: slots).Nodup)
    (hslots : lines.Holds indexOf (slot :: slots)) :
    (lines.dropAt indexOf slot).Holds indexOf slots := by
  intro kept hkept
  obtain ⟨index, hindex, hlocated, hslot⟩ := hslots kept (by simp [hkept])
  refine ⟨index, by simpa using hindex, hlocated, ?_⟩
  rw [h.slots_dropAt (fun first hfirst ↦ hslots first (by simp_all)) hindex]
  grind

theorem dropAll (h : lines.Linked) (hnodup : slots.Nodup) (hslots : lines.Holds indexOf slots) :
    (Lines.dropAll indexOf slots lines).Linked := by
  induction slots generalizing lines with
  | nil => exact h
  | cons slot rest ih =>
    have hfirst : lines.Holds indexOf [slot] := fun first hfirst ↦ hslots first (by simp_all)
    exact ih (h.dropAt hfirst) hnodup.of_cons (h.holds_dropAt hnodup hslots)

theorem slots_dropAll (h : lines.Linked) (hnodup : slots.Nodup)
    (hslots : lines.Holds indexOf slots) (hother : other < lines.size) :
    (Lines.dropAll indexOf slots lines).slots other =
      (lines.slots other).filter (· ∉ slots) := by
  induction slots generalizing lines with
  | nil => simp [Lines.dropAll]
  | cons slot rest ih =>
    have hfirst : lines.Holds indexOf [slot] := fun first hfirst ↦ hslots first (by simp_all)
    have hrest := ih (h.dropAt hfirst) hnodup.of_cons (h.holds_dropAt hnodup hslots)
      (by simpa using hother)
    rw [h.slots_dropAt hfirst hother, List.filter_filter] at hrest
    rw [Lines.dropAll, List.foldl_cons, ← Lines.dropAll, hrest]
    apply List.filter_congr
    intro kept _
    simp [Bool.and_comm]

/-- Cells that are put back in the reverse order leave no trace. -/
theorem recoverAll_dropAll (h : lines.Linked) (hnodup : slots.Nodup)
    (hslots : lines.Holds indexOf slots) :
    slots.reverse.foldl (recoverAt indexOf) (Lines.dropAll indexOf slots lines) = lines := by
  induction slots generalizing lines with
  | nil => rfl
  | cons slot rest ih =>
    have hfirst : lines.Holds indexOf [slot] := fun first hfirst ↦ hslots first (by simp_all)
    have hrest := ih (h.dropAt hfirst) hnodup.of_cons (h.holds_dropAt hnodup hslots)
    rw [Lines.dropAll, List.foldl_cons, ← Lines.dropAll, List.reverse_cons, List.foldl_append, hrest]
    exact h.recoverAt_dropAt hfirst

end Linked

end SetCover.Lines

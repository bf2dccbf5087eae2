import SetCover.Proofs.Lines.Linked

/-!
# New cells and newly active lines

A new cell goes to its place in the ring of its line, which becomes active with its first cell.  The
other lines keep their cells.
-/

namespace SetCover.Lines

open Links

variable {lines : Lines} {index other slot : Nat} {before after : List Nat}

@[simp]
theorem slots_empty {size : Nat} (hindex : index < size) : (empty size).slots index = [] :=
  slots_eq_of_isRing (isRing_isolated hindex)

@[simp]
theorem active_empty (size : Nat) : (empty size).active = [] :=
  (isRing_isolated (Nat.lt_succ_self size)).ring_eq

theorem linked_empty (size : Nat) : (empty size).Linked where
  countsSize := by simp [empty]
  flagsSize := by simp [empty]
  chainSize := by simp [empty, isolated]
  even := even_isolated size
  chain := by
    rw [active_empty]
    exact isRing_isolated (Nat.lt_succ_self size)
  ascending := by simp
  flag index := by
    rw [active_empty]
    by_cases hindex : index < size <;> simp [empty, isActive, hindex]
  ring index hindex := by
    have hindex : index < size := hindex
    rw [slots_empty hindex]
    exact isRing_isolated hindex
  count index hindex := by
    have hindex : index < size := hindex
    rw [slots_empty hindex]
    simp [empty, count, hindex]
  disjoint first hfirst _ _ slot hslot := by
    have hfirst : first < size := hfirst
    rw [slots_empty hfirst] at hslot
    simp at hslot

theorem count_attach (gap : Nat × Nat) (hindex : index < lines.counts.size) :
    (lines.attach index slot gap).count other =
      if other = index then lines.count index + 1 else lines.count other := by
  rcases eq_or_ne other index with rfl | hne
  · simp [attach, count, Array.getElem_modify, hindex]
  · simp [attach, count, Array.getElem?_modify, hne, Ne.symm hne]

/-- The nodes on both sides of a gap between the cells of a line. -/
def gapOf (lines : Lines) (index : Nat) (before after : List Nat) : Nat × Nat :=
  ((before.map lines.node).getLast?.getD index, (after.map lines.node).head?.getD index)

namespace Linked

variable {rank : Nat → Nat} {position : Nat}

theorem map_rank (lines : Lines) (rank : Nat → Nat) (slots : List Nat) :
    (slots.map lines.node).map (fun node ↦ rank (node - lines.size)) = slots.map rank := by
  rw [List.map_map]
  apply List.map_congr_left
  intro slot _
  simp [node]

theorem gap?_eq_none (h : lines.Linked) (hindex : index < lines.size)
    (hascending : ((lines.slots index).map rank).Pairwise (· < ·))
    (hposition : position ∈ (lines.slots index).map rank) :
    lines.gap? rank index position = none := by
  rw [← map_rank lines rank] at hascending hposition
  exact (h.ring index hindex).gap?_eq_none hascending hposition

theorem gap?_eq_some (h : lines.Linked) (hindex : index < lines.size)
    (hascending : ((lines.slots index).map rank).Pairwise (· < ·))
    (hposition : position ∉ (lines.slots index).map rank) :
    ∃ before after, lines.slots index = before ++ after ∧ (∀ slot ∈ before, rank slot < position) ∧
      (∀ slot ∈ after, position < rank slot) ∧
      lines.gap? rank index position =
        some (gapOf lines index before after) := by
  rw [← map_rank lines rank] at hascending hposition
  obtain ⟨left, right, hsplit, hleft, hright, hgap⟩ :=
    (h.ring index hindex).gap?_eq_some hascending hposition
  obtain ⟨before, after, hslots, rfl, rfl⟩ := List.map_eq_append_iff.mp hsplit
  refine ⟨before, after, hslots, fun slot hslot ↦ ?_, fun slot hslot ↦ ?_, hgap⟩
  · simpa [Lines.node] using hleft _ (List.mem_map_of_mem hslot)
  · simpa [Lines.node] using hright _ (List.mem_map_of_mem hslot)

theorem isRing_attach (h : lines.Linked) (hindex : index < lines.size)
    (hsplit : lines.slots index = before ++ after) (hother : other < lines.size)
    (hnew : ∀ other < lines.size, slot ∉ lines.slots other) :
    (lines.attach index slot (gapOf lines index before after)).rings.IsRing other
      ((if other = index then before ++ slot :: after else lines.slots other).map lines.node) := by
  have hholds := holds_reserve_self h.even (lines.node slot)
  have hring := (h.ring index hindex).reserve h.even (lines.node slot)
  have hnewNode {other : Nat} (hother : other < lines.size) :
      lines.node slot ∉ other :: (lines.slots other).map lines.node := by
    have hslot := hnew other hother
    simp only [List.mem_cons, List.mem_map, Lines.node]
    grind
  rcases eq_or_ne other index with rfl | hne
  · have hnode := hnewNode hother
    rw [hsplit, List.map_append] at hring hnode
    rw [if_pos rfl, List.map_append, List.map_cons]
    exact hring.insertBetween hholds hnode
  · have hdisjoint := h.disjoint_rings hindex hother hne
    rw [hsplit, List.map_append] at hring hdisjoint
    rw [if_neg hne]
    exact hring.insertBetween_of_disjoint hholds (hnewNode hother)
      ((h.ring other hother).reserve h.even _) hdisjoint

theorem slots_attach (h : lines.Linked) (hindex : index < lines.size)
    (hsplit : lines.slots index = before ++ after) (hother : other < lines.size)
    (hnew : ∀ other < lines.size, slot ∉ lines.slots other) :
    (lines.attach index slot (gapOf lines index before after)).slots other =
      if other = index then before ++ slot :: after else lines.slots other :=
  slots_eq_of_isRing (h.isRing_attach hindex hsplit hother hnew)

theorem attach (h : lines.Linked) (hindex : index < lines.size)
    (hsplit : lines.slots index = before ++ after)
    (hnew : ∀ other < lines.size, slot ∉ lines.slots other) :
    (lines.attach index slot (gapOf lines index before after)).Linked where
  countsSize := by simpa [Lines.attach] using h.countsSize
  flagsSize := h.flagsSize
  chainSize := h.chainSize
  even := by simpa [Lines.attach, Links.insertBetween] using even_reserve h.even
  chain := h.chain
  ascending := h.ascending
  flag := h.flag
  ring other hother := by
    rw [h.slots_attach hindex hsplit hother hnew]
    exact h.isRing_attach hindex hsplit hother hnew
  count other hother := by
    rw [count_attach _ (h.countsSize ▸ hindex), h.slots_attach hindex hsplit hother hnew,
      h.count index hindex, h.count other hother]
    split
    · simp [hsplit, Nat.add_assoc]
    · rfl
  disjoint first hfirst second hsecond kept hkept hmem := by
    rw [h.slots_attach hindex hsplit hfirst hnew] at hkept
    rw [h.slots_attach hindex hsplit hsecond hnew] at hmem
    have hdisjoint := h.disjoint first hfirst second hsecond kept
    have hfirstNew := hnew first hfirst
    have hsecondNew := hnew second hsecond
    grind

/-- An inactive line can always be activated, and this changes nothing else. -/
theorem exists_activate? (h : lines.Linked) (hindex : index < lines.size)
    (hinactive : index ∉ lines.active) :
    ∃ activated, lines.activate? index = some activated ∧ activated.Linked ∧
      activated.size = lines.size ∧ activated.counts = lines.counts ∧
      activated.rings = lines.rings ∧
      ∀ other, other ∈ activated.active ↔ other = index ∨ other ∈ lines.active := by
  have hranked : (lines.active.map id).Pairwise (· < ·) := by simpa using h.ascending
  have hposition : index ∉ lines.active.map id := by simpa using hinactive
  obtain ⟨before, after, hsplit, hbefore, hafter, hgap⟩ := h.chain.gap?_eq_some hranked hposition
  have hchain := h.chain
  have hascending := h.ascending
  have hne : index ≠ lines.size := by omega
  rw [hsplit] at hchain hascending hinactive
  have hring := hchain.insertBetween (h.holds_chain (Nat.le_of_lt hindex)) (by grind)
  let activated : Lines :=
    { lines with
      flags := lines.flags.setIfInBounds index true
      chain := lines.chain.insertBetween (before.getLast?.getD lines.size) index
        (after.head?.getD lines.size) }
  have hactive : activated.active = before ++ index :: after := hring.ring_eq
  refine ⟨activated, by rw [activate?, hgap]; rfl, ?_, rfl, rfl, rfl, ?_⟩
  · refine ⟨h.countsSize, by simpa [activated] using h.flagsSize, ?_, h.even, ?_, ?_, ?_, h.ring,
      h.count, h.disjoint⟩
    · simpa [activated, Links.insertBetween, Links.join] using h.chainSize
    · rw [hactive]
      exact hring
    · rw [hactive, List.pairwise_append, List.pairwise_cons]
      obtain ⟨hleft, hright, hbetween⟩ := List.pairwise_append.mp hascending
      refine ⟨hleft, ⟨hafter, hright⟩, fun first hfirst second hsecond ↦ ?_⟩
      rcases List.mem_cons.mp hsecond with rfl | hsecond
      · exact hbefore first hfirst
      · exact hbetween first hfirst second hsecond
    · intro other
      have hflag := h.flag other
      have hlt : index < lines.flags.size := h.flagsSize ▸ hindex
      rw [hsplit] at hflag
      rw [hactive]
      rcases eq_or_ne other index with rfl | hne
      · simp [activated, isActive, hlt]
      · have hkeep : activated.isActive other = lines.isActive other := by
          simp [activated, isActive, Array.getElem?_setIfInBounds_ne (Ne.symm hne)]
        rw [hkeep, hflag]
        grind
  · intro other
    rw [hactive, hsplit]
    grind

end Linked

end SetCover.Lines

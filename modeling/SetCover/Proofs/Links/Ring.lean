import Mathlib.Data.List.Chain
import Mathlib.Data.List.Nodup
import Mathlib.Data.List.Perm.Subperm
import SetCover.Links

/-!
# Rings of nodes

`IsRing` says that the links of a head and some nodes close a circle in the given order, forwards and
backwards.  Walking along the links then finds exactly these nodes, a node can be taken out or put
in anywhere, and a node that was taken out and put back leaves the links as they were, entry by
entry.  Nodes outside a ring do not matter for it.
-/

namespace SetCover.Links

variable {links : Links} {head left node right : Nat} {nodes before after : List Nat}

/-- The second node follows the first, and the first precedes the second. -/
def Adjacent (links : Links) (left right : Nat) : Prop :=
  links.next left = right ∧ links.prev right = left

/-- The links of a node are kept. -/
def Holds (links : Links) (node : Nat) : Prop :=
  node < links.before.size ∧ node < links.after.size

/-- The head and the nodes form a ring in this order. -/
structure IsRing (links : Links) (head : Nat) (nodes : List Nat) : Prop where
  nodup : (head :: nodes).Nodup
  holds : ∀ node ∈ head :: nodes, links.Holds node
  adjacent : (head :: nodes ++ [head]).IsChain links.Adjacent

@[simp]
theorem holds_join : (links.join left right).Holds node ↔ links.Holds node := by
  simp [Holds, join]

@[simp]
theorem holds_insertBetween :
    (links.insertBetween left node right).Holds head ↔ links.Holds head := by
  simp [insertBetween]

theorem adjacent_join (hleft : links.Holds left) (hright : links.Holds right) :
    (links.join left right).Adjacent left right := by
  simp [Adjacent, next_join _ _ _ _ hleft.2, prev_join _ _ _ _ hright.1]

theorem Adjacent.join_of_ne {first second : Nat} (h : links.Adjacent first second)
    (hleft : links.Holds left) (hright : links.Holds right) (hfirst : first ≠ left)
    (hsecond : second ≠ right) : (links.join left right).Adjacent first second := by
  simpa [Adjacent, next_join _ _ _ _ hleft.2, prev_join _ _ _ _ hright.1, hfirst, hsecond] using h

/-! ## Walking around a ring -/

theorem walk_of_isChain {step : Nat → Nat} {stop steps : Nat}
    (hchain : (node :: nodes ++ [stop]).IsChain fun first second ↦ step first = second)
    (hstop : stop ∉ nodes) (hsteps : nodes.length ≤ steps) :
    walk step stop steps (step node) = nodes := by
  induction nodes generalizing node steps with
  | nil =>
    have hnode : step node = stop := by simpa using hchain
    cases steps <;> simp [walk, hnode]
  | cons next rest ih =>
    obtain ⟨hnext, hrest⟩ := List.isChain_cons_cons.mp hchain
    obtain ⟨hne, hmem⟩ := List.ne_and_not_mem_of_not_mem_cons hstop
    cases steps with
    | zero => simp at hsteps
    | succ steps =>
      rw [hnext, walk, if_neg (Ne.symm hne), ih hrest hmem (by simpa using hsteps)]

theorem IsRing.length_lt (h : links.IsRing head nodes) : nodes.length < links.after.size := by
  have hsubset : (head :: nodes) ⊆ List.range links.after.size := by
    intro node hmem
    exact List.mem_range.mpr (h.holds node hmem).2
  simpa [Nat.succ_le_iff] using (List.subperm_of_subset h.nodup hsubset).length_le

theorem IsRing.ring_eq (h : links.IsRing head nodes) : links.ring head = nodes :=
  walk_of_isChain (h.adjacent.imp fun _ _ hadjacent ↦ hadjacent.1)
    (List.nodup_cons.mp h.nodup).1 (Nat.le_of_lt h.length_lt)

theorem IsRing.ringBack_eq (h : links.IsRing head nodes) :
    links.ringBack head = nodes.reverse := by
  refine walk_of_isChain ?_ ?_ (by simpa [size] using Nat.le_of_lt h.length_lt)
  · have hback := List.isChain_reverse.mpr (h.adjacent.imp fun _ _ hadjacent ↦ hadjacent.2)
    simpa using hback
  · simpa using (List.nodup_cons.mp h.nodup).1

/-! ## The neighbours of a node -/

/-- A circle falls into the part up to a gap, the part after it, and the step across the gap. -/
theorem isChain_ring_iff {relation : Nat → Nat → Prop} :
    (head :: (before ++ after) ++ [head]).IsChain relation ↔
      (head :: before).IsChain relation ∧ (after ++ [head]).IsChain relation ∧
        relation (before.getLast?.getD head) (after.head?.getD head) := by
  rw [← List.cons_append, List.append_assoc, List.isChain_append]
  simp [List.getLast?_cons]

theorem IsRing.adjacent_gap (h : links.IsRing head (before ++ after)) :
    links.Adjacent (before.getLast?.getD head) (after.head?.getD head) :=
  (isChain_ring_iff.mp h.adjacent).2.2

theorem IsRing.adjacent_left (h : links.IsRing head (before ++ node :: after)) :
    links.Adjacent (before.getLast?.getD head) node := by
  simpa using h.adjacent_gap

theorem IsRing.adjacent_right (h : links.IsRing head (before ++ node :: after)) :
    links.Adjacent node (after.head?.getD head) := by
  rw [← List.singleton_append, ← List.append_assoc] at h
  simpa using h.adjacent_gap

theorem getLast?_getD_mem (head : Nat) (before : List Nat) :
    before.getLast?.getD head ∈ head :: before := by
  cases hlast : before.getLast? with
  | none => simp
  | some last => simp [List.mem_of_getLast? hlast]

theorem head?_getD_mem (head : Nat) (after : List Nat) :
    after.head?.getD head ∈ head :: after := by
  cases hfirst : after.head? with
  | none => simp
  | some first => simp [List.mem_of_head? hfirst]

theorem IsRing.holds_left (h : links.IsRing head (before ++ after)) :
    links.Holds (before.getLast?.getD head) := by
  have hmem := getLast?_getD_mem head before
  exact h.holds _ (by grind)

theorem IsRing.holds_right (h : links.IsRing head (before ++ after)) :
    links.Holds (after.head?.getD head) := by
  have hmem := head?_getD_mem head after
  exact h.holds _ (by grind)

/-! ## Changing a ring -/

/-- A ring does not depend on links that lead out of a node outside and into a node outside. -/
theorem IsRing.join_of_notMem (h : links.IsRing head nodes) (hleft : links.Holds left)
    (hright : links.Holds right) (hleftMem : left ∉ head :: nodes)
    (hrightMem : right ∉ head :: nodes) : (links.join left right).IsRing head nodes where
  nodup := h.nodup
  holds node hmem := holds_join.mpr (h.holds node hmem)
  adjacent := by
    apply h.adjacent.imp_of_mem_imp
    intro first second hfirst hsecond hadjacent
    exact hadjacent.join_of_ne hleft hright (by grind) (by grind)

theorem IsRing.detach (h : links.IsRing head (before ++ node :: after)) :
    (links.detach node).IsRing head (before ++ after) := by
  have hprev := h.adjacent_left
  have hnext := h.adjacent_right
  have hleft := h.holds_left
  have hright : links.Holds (after.head?.getD head) := by
    have hmem := head?_getD_mem head after
    exact h.holds _ (by grind)
  have hdetach : links.detach node =
      links.join (before.getLast?.getD head) (after.head?.getD head) := by
    rw [Links.detach, hprev.2, hnext.1]
  -- A step that does not meet the node is neither the one into it nor the one out of it.
  have hkeep {first second : Nat} (hfirst : first ≠ node) (hsecond : second ≠ node)
      (hadjacent : links.Adjacent first second) :
      (links.detach node).Adjacent first second := by
    rw [hdetach]
    refine hadjacent.join_of_ne hleft hright ?_ ?_
    · rintro rfl
      exact hsecond (hadjacent.1.symm.trans hprev.1)
    · rintro rfl
      exact hfirst (hadjacent.2.symm.trans hnext.2)
  obtain ⟨hbefore, hafter, -⟩ := isChain_ring_iff.mp h.adjacent
  have hnodup := h.nodup
  refine ⟨by grind, fun other hmem ↦ ?_, isChain_ring_iff.mpr ⟨?_, ?_, ?_⟩⟩
  · rw [hdetach, holds_join]
    exact h.holds other (by grind)
  · exact hbefore.imp_of_mem_imp fun _ _ _ _ ↦ hkeep (by grind) (by grind)
  · exact (List.isChain_cons.mp hafter).2.imp_of_mem_imp fun _ _ _ _ ↦
      hkeep (by grind) (by grind)
  · rw [hdetach]
    exact adjacent_join hleft hright

/-- A node leaves its own ring only. -/
theorem IsRing.detach_of_disjoint {other : Nat} {others : List Nat} (h : links.IsRing head nodes)
    (hnode : node ∈ nodes) (hother : links.IsRing other others)
    (hdisjoint : ∀ node ∈ head :: nodes, node ∉ other :: others) :
    (links.detach node).IsRing other others := by
  obtain ⟨before, after, rfl⟩ := List.append_of_mem hnode
  rw [Links.detach, h.adjacent_left.2, h.adjacent_right.1]
  have hleft := getLast?_getD_mem head before
  have hright := head?_getD_mem head after
  exact hother.join_of_notMem h.holds_left (h.holds _ (by grind))
    (hdisjoint _ (by grind)) (hdisjoint _ (by grind))

/-- A node enters one ring only. -/
theorem IsRing.insertBetween_of_disjoint {other : Nat} {others : List Nat}
    (h : links.IsRing head (before ++ after)) (hnode : links.Holds node)
    (hnew : node ∉ other :: others) (hother : links.IsRing other others)
    (hdisjoint : ∀ node ∈ head :: (before ++ after), node ∉ other :: others) :
    (links.insertBetween (before.getLast?.getD head) node (after.head?.getD head)).IsRing other
      others := by
  have hleft := getLast?_getD_mem head before
  have hright := head?_getD_mem head after
  have hring := hother.join_of_notMem h.holds_left hnode (hdisjoint _ (by grind)) hnew
  exact hring.join_of_notMem (holds_join.mpr hnode) (holds_join.mpr h.holds_right) hnew
    (hdisjoint _ (by grind))

theorem IsRing.insertBetween (h : links.IsRing head (before ++ after)) (hnode : links.Holds node)
    (hnew : node ∉ head :: (before ++ after)) :
    (links.insertBetween (before.getLast?.getD head) node (after.head?.getD head)).IsRing head
      (before ++ node :: after) := by
  set left := before.getLast?.getD head with hleftDef
  set right := after.head?.getD head with hrightDef
  have hgap : links.Adjacent left right := h.adjacent_gap
  have hleft : links.Holds left := h.holds_left
  have hright : links.Holds right := h.holds_right
  have hleftMem : left ∈ head :: before := getLast?_getD_mem head before
  have hrightMem : right ∈ head :: after := head?_getD_mem head after
  have hnodup := h.nodup
  -- The only step of the ring that is given up is the one across the gap.
  have hkeep {first second : Nat} (hfirst : first ≠ node) (hsecond : second ≠ node)
      (hgapSecond : second ≠ right) (hadjacent : links.Adjacent first second) :
      (links.insertBetween left node right).Adjacent first second := by
    have hfirstLeft : first ≠ left := by
      rintro rfl
      exact hgapSecond (hadjacent.1.symm.trans hgap.1)
    exact (hadjacent.join_of_ne hleft hnode hfirstLeft hsecond).join_of_ne
      (holds_join.mpr hnode) (holds_join.mpr hright) hfirst hgapSecond
  obtain ⟨hbefore, hafter, -⟩ := isChain_ring_iff.mp h.adjacent
  refine ⟨by grind, fun other hmem ↦ ?_, isChain_ring_iff.mpr ⟨?_, ?_, ?_⟩⟩
  · rw [holds_insertBetween]
    rcases eq_or_ne other node with rfl | hne
    · exact hnode
    · exact h.holds other (by grind)
  · apply (List.IsChain.iff_mem_mem_tail.mp hbefore).imp
    intro first second hpair
    obtain ⟨hfirst, hsecond, hadjacent⟩ := hpair
    rw [List.tail_cons] at hsecond
    exact hkeep (by grind) (by grind) (by grind) hadjacent
  · refine List.isChain_cons.mpr ⟨fun second hsecond ↦ ?_, ?_⟩
    · have hsecond : second = right := by
        simpa [hrightDef, List.head?_append, Option.or_eq_some_iff, eq_comm] using hsecond
      rw [hsecond]
      exact adjacent_join (holds_join.mpr hnode) (holds_join.mpr hright)
    · apply (List.IsChain.iff_mem_mem_tail.mp hafter).imp
      intro first second hpair
      obtain ⟨hfirst, hsecond, hadjacent⟩ := hpair
      have hsecondRight : second ≠ right := by
        cases after with
        | nil => simp at hsecond
        | cons next rest =>
          simp only [List.cons_append, List.tail_cons] at hsecond
          have hrightNext : right = next := by simp [hrightDef]
          grind
      have hsecond := List.mem_of_mem_tail hsecond
      exact hkeep (by grind) (by grind) hsecondRight hadjacent
  · exact (adjacent_join hleft hnode).join_of_ne (holds_join.mpr hnode) (holds_join.mpr hright)
      (by grind) (by grind)

/-! ## Exact restoration -/

/-- Links are determined by the neighbours of all nodes. -/
theorem eq_of_neighbours {other : Links} (hbefore : links.before.size = other.before.size)
    (hafter : links.after.size = other.after.size) (hprev : links.prev = other.prev)
    (hnext : links.next = other.next) : links = other := by
  have hentries {first second : Array Nat} (hsize : first.size = second.size)
      (hget : (fun node ↦ first.getD node node) = fun node ↦ second.getD node node) :
      first = second := by
    apply Array.ext hsize
    intro node hfirst hsecond
    have hnode := congrFun hget node
    simpa [hfirst, hsecond] using hnode
  exact congrArg₂ Links.mk (hentries hbefore hprev) (hentries hafter hnext)

theorem IsRing.ne_of_adjacent (h : links.IsRing head nodes) (hnode : node ∈ nodes) :
    links.prev node ≠ node ∧ links.next node ≠ node := by
  obtain ⟨before, after, rfl⟩ := List.append_of_mem hnode
  rw [h.adjacent_left.2, h.adjacent_right.1]
  have hnodup := h.nodup
  have hleft := getLast?_getD_mem head before
  have hright := head?_getD_mem head after
  constructor <;> grind

/-- A node that is put back right after it was taken out leaves no trace. -/
theorem IsRing.reattach_detach (h : links.IsRing head nodes) (hnode : node ∈ nodes) :
    (links.detach node).reattach node = links := by
  obtain ⟨hprevNe, hnextNe⟩ := h.ne_of_adjacent hnode
  obtain ⟨before, after, rfl⟩ := List.append_of_mem hnode
  have hheld : links.Holds node := h.holds node (by simp)
  have hleft : links.Holds (links.prev node) := by
    rw [h.adjacent_left.2]
    exact h.holds_left
  have hright : links.Holds (links.next node) := by
    rw [h.adjacent_right.1]
    have hmem := head?_getD_mem head after
    exact h.holds _ (by grind)
  have hback : links.next (links.prev node) = node := by
    rw [h.adjacent_left.2]
    exact h.adjacent_left.1
  have hforth : links.prev (links.next node) = node := by
    rw [h.adjacent_right.1]
    exact h.adjacent_right.2
  have hprev : (links.detach node).prev node = links.prev node := by
    simp [Links.detach, prev_join _ _ _ _ hright.1, Ne.symm hnextNe]
  have hnext : (links.detach node).next node = links.next node := by
    simp [Links.detach, next_join _ _ _ _ hleft.2, Ne.symm hprevNe]
  -- The outer writes give the neighbours the node back, and the inner ones rewrite its own links.
  refine eq_of_neighbours ?_ ?_ (funext fun other ↦ ?_) (funext fun other ↦ ?_)
  · simp [reattach, Links.detach, Links.insertBetween, join]
  · simp [reattach, Links.detach, Links.insertBetween, join]
  · rw [reattach, hprev, hnext, Links.insertBetween, prev_join, prev_join, Links.detach, prev_join]
    · grind
    all_goals simp_all [Holds, join, Links.detach]
  · rw [reattach, hprev, hnext, Links.insertBetween, next_join, next_join, Links.detach, next_join]
    · grind
    all_goals simp_all [Holds, join, Links.detach]

/-! ## New nodes -/

theorem isRing_isolated {count : Nat} (hhead : head < count) :
    (isolated count).IsRing head [] := by
  refine ⟨by simp, ?_, ?_⟩
  · simp [Holds, isolated, hhead]
  · simp [Adjacent, next, prev, isolated, hhead]

/-- Both arrays of links are of one size. -/
def Even (links : Links) : Prop := links.before.size = links.after.size

@[simp]
theorem even_join : (links.join left right).Even ↔ links.Even := by
  simp [Even, join]

theorem even_isolated (count : Nat) : (isolated count).Even := rfl

theorem getD_append_range' (entries : Array Nat) (count node : Nat) :
    (entries ++ Array.range' entries.size count).getD node node = entries.getD node node := by
  rcases Nat.lt_or_ge node entries.size with hlt | hge
  · simp [hlt, Array.getElem?_append_left hlt]
  · rcases Nat.lt_or_ge (node - entries.size) count with hcount | hcount
    · simp [hge, Array.getElem?_append_right hge, hcount]
    · simp [hge, Array.getElem?_append_right hge, Nat.not_lt.mpr hcount]

theorem next_reserve : (links.reserve node).next = links.next := by
  funext other
  unfold reserve next size
  split
  · rfl
  · exact getD_append_range' _ _ _

theorem prev_reserve (heven : links.Even) : (links.reserve node).prev = links.prev := by
  funext other
  unfold reserve prev size
  split
  · rfl
  · rw [← heven]
    exact getD_append_range' _ _ _

theorem even_reserve (heven : links.Even) : (links.reserve node).Even := by
  unfold reserve
  split
  · exact heven
  · simpa [Even] using heven

theorem holds_reserve (h : links.Holds head) : (links.reserve node).Holds head := by
  unfold reserve
  split
  · exact h
  · have hbefore := h.1
    have hafter := h.2
    constructor <;> simp <;> omega

theorem holds_reserve_self (heven : links.Even) (node : Nat) : (links.reserve node).Holds node := by
  unfold Even at heven
  unfold reserve size
  split
  · constructor <;> omega
  · constructor <;> simp <;> omega

theorem IsRing.reserve (h : links.IsRing head nodes) (heven : links.Even) (node : Nat) :
    (links.reserve node).IsRing head nodes where
  nodup := h.nodup
  holds other hmem := holds_reserve (h.holds other hmem)
  adjacent := h.adjacent.imp fun _ _ hadjacent ↦ by
    rwa [Adjacent, next_reserve, prev_reserve heven]

/-! ## Finding the place of a new node -/

variable {rank : Nat → Nat} {position : Nat}

/-- In an ascending ring there is no gap for a rank that is taken. -/
theorem IsRing.gap?_eq_none (h : links.IsRing head nodes)
    (hascending : (nodes.map rank).Pairwise (· < ·)) (hposition : position ∈ nodes.map rank) :
    links.gap? rank head position = none := by
  obtain ⟨node, hnode, rfl⟩ := List.mem_map.mp hposition
  obtain ⟨before, after, rfl⟩ := List.append_of_mem hnode
  have hfind : (before ++ node :: after).find? (fun other ↦ rank node ≤ rank other) =
      some node := by
    refine List.find?_eq_some_iff_append.mpr ⟨by simp, before, after, rfl, fun other hother ↦ ?_⟩
    have hlt : rank other < rank node := by
      rw [List.map_append, List.pairwise_append] at hascending
      exact hascending.2.2 _ (List.mem_map_of_mem hother) _ (by simp)
    simpa using hlt
  simp [gap?, h.ring_eq, hfind]

/-- In an ascending ring the gap for a new rank lies behind the smaller ranks. -/
theorem IsRing.gap?_eq_some (h : links.IsRing head nodes)
    (hascending : (nodes.map rank).Pairwise (· < ·)) (hposition : position ∉ nodes.map rank) :
    ∃ before after, nodes = before ++ after ∧ (∀ node ∈ before, rank node < position) ∧
      (∀ node ∈ after, position < rank node) ∧
      links.gap? rank head position =
        some (before.getLast?.getD head, after.head?.getD head) := by
  cases hfind : nodes.find? (fun node ↦ position ≤ rank node) with
  | none =>
    refine ⟨nodes, [], by simp, fun node hnode ↦ ?_, by simp, ?_⟩
    · simpa using List.find?_eq_none.mp hfind node hnode
    · rw [← List.append_nil nodes] at h
      have hgap : links.Adjacent (nodes.getLast?.getD head) head := by simpa using h.adjacent_gap
      rw [List.append_nil] at h
      simp [gap?, h.ring_eq, hfind, hgap.2]
  | some node =>
    obtain ⟨hle, before, after, rfl, hbefore⟩ := List.find?_eq_some_iff_append.mp hfind
    have hle : position ≤ rank node := by simpa using hle
    have hne : rank node ≠ position := by
      rintro rfl
      exact hposition (List.mem_map_of_mem (by simp))
    refine ⟨before, node :: after, rfl, fun other hother ↦ ?_, fun other hother ↦ ?_, ?_⟩
    · simpa using hbefore other hother
    · rw [List.map_append, List.pairwise_append, List.map_cons, List.pairwise_cons] at hascending
      rcases List.mem_cons.mp hother with rfl | hother
      · omega
      · have hlt := hascending.2.1.1 _ (List.mem_map_of_mem hother)
        omega
    · simp [gap?, h.ring_eq, hfind, hne, h.adjacent_left.2]

end SetCover.Links

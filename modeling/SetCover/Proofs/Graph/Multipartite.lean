import SetCover.Proofs.Graph.Clique
import SetCover.Proofs.Search.Amounts
import SetCover.Search.Bound

/-!
# Greedy cliques of groups

If nodes are adjacent as soon as they are of different groups, a clique has at most one node of every
group, and a grown one has one of every group.  Among the candidates all nodes of a group have the same
neighbours, so the one that weighs most is the one that costs most, and its pick leaves the other groups
as they are.  So a greedy clique has one of the dearest nodes of every group.
-/

namespace SetCover.Graph

/-! ## The picks -/

section Picks

variable {κ : Type} {costs : List κ} {groups : List Nat} {first second node : Nat}

/-- The neighbours of a node are the nodes of other groups. -/
theorem mem_noted_iff (hfirst : first < groups.length) :
    second ∈ (multipartite costs groups).noted.getD first [] ↔
      second < groups.length ∧ groups.getD second 0 ≠ groups.getD first 0 := by
  have hnoted : (multipartite costs groups).noted.getD first [] =
      (groups.zipIdx.filter fun pair ↦ pair.1 != groups[first]).map Prod.snd := by
    simp [multipartite, hfirst]
  rw [hnoted, ← @List.getElem_eq_getD _ _ _ hfirst 0, List.mem_map]
  constructor
  · rintro ⟨⟨group, position⟩, hpair, rfl⟩
    obtain ⟨hmem, hne⟩ := List.mem_filter.mp hpair
    obtain ⟨hposition, hgroup⟩ := List.mem_zipIdx' hmem
    refine ⟨hposition, ?_⟩
    rw [← @List.getElem_eq_getD _ _ _ hposition 0, ← hgroup]
    simpa using hne
  · rintro ⟨hsecond, hne⟩
    rw [← @List.getElem_eq_getD _ _ _ hsecond 0] at hne
    refine ⟨(groups[second], second), List.mem_filter.mpr ⟨?_, by simpa using hne⟩, rfl⟩
    exact List.mem_zipIdx_iff_getElem?.mpr (List.getElem?_eq_getElem hsecond)

/-- No node is its own neighbour. -/
theorem not_mem_noted_self (node : Nat) :
    node ∉ (multipartite costs groups).noted.getD node [] := by
  by_cases hnode : node < groups.length
  · exact fun hmem ↦ ((mem_noted_iff hnode).mp hmem).2 rfl
  · simp [multipartite, hnode]

variable {elements picked : List Nat} {costOf : Nat → κ} {groupOf : Nat → Nat}

theorem size_multipartite :
    (multipartite (elements.map costOf) (elements.map groupOf)).size = elements.length := by
  simp [multipartite, size]

/-- The group of a node is the one of the element in its place. -/
theorem mem_noted_multipartite_iff (hfirst : first < elements.length)
    (hsecond : second < elements.length) :
    second ∈ (multipartite (elements.map costOf) (elements.map groupOf)).noted.getD first [] ↔
      groupOf (elements.getD second 0) ≠ groupOf (elements.getD first 0) := by
  have hgroup {node : Nat} (hnode : node < elements.length) :
      (elements.map groupOf).getD node 0 = groupOf (elements.getD node 0) := by
    simp [hnode]
  have hlength : (elements.map groupOf).length = elements.length := List.length_map groupOf
  rw [mem_noted_iff (hlength ▸ hfirst), hgroup hfirst, hgroup hsecond, hlength]
  exact and_iff_right hsecond

/-- What is picked stands in the place of a node of the clique. -/
theorem exists_pick_of_picked {clique : Clique κ}
    (hpicked : clique.picks.map (fun pick ↦ elements[pick.node]?) = picked.map some) {first : Nat}
    (hfirst : first ∈ picked) : ∃ pick ∈ clique.picks, elements[pick.node]? = some first := by
  have hplace : some first ∈ picked.map some := List.mem_map_of_mem hfirst
  rw [← hpicked] at hplace
  exact List.mem_map.mp hplace

theorem subset_of_picked {clique : Clique κ}
    (hpicked : clique.picks.map (fun pick ↦ elements[pick.node]?) = picked.map some) :
    picked ⊆ elements := by
  intro first hfirst
  obtain ⟨pick, -, hplace⟩ := exists_pick_of_picked hpicked hfirst
  exact List.mem_of_getElem? hplace

variable [Cost κ]

theorem costOf_multipartite (hnode : node < elements.length) :
    (multipartite (elements.map costOf) (elements.map groupOf)).costOf node =
      costOf (elements.getD node 0) := by
  simp [multipartite, Graph.costOf, hnode]

/-- The picks of the clique are elements of different groups, one of every group. -/
theorem exists_picked (elements : List Nat) (costOf : Nat → κ) (groupOf : Nat → Nat) :
    let clique := (multipartite (elements.map costOf) (elements.map groupOf)).clique
    ∃ picked : List Nat, clique.picks.map (fun pick ↦ elements[pick.node]?) = picked.map some ∧
      picked.Pairwise (fun first second ↦ groupOf first ≠ groupOf second) ∧
      (∀ element ∈ elements, ∃ first ∈ picked, groupOf first = groupOf element) ∧
      clique.cost = Cost.sumFrom Cost.zero (picked.map costOf) := by
  intro clique
  obtain ⟨hnodes, hpairs⟩ := (multipartite (elements.map costOf) (elements.map groupOf)).clique_spec
  rw [size_multipartite] at hnodes
  refine ⟨clique.picks.map fun pick ↦ elements.getD pick.node 0, ?_, ?_, fun element helement ↦ ?_, ?_⟩
  · rw [List.map_map]
    apply List.map_congr_left
    intro pick hpick
    simp [hnodes pick hpick]
  · rw [List.pairwise_map]
    refine hpairs.imp_of_mem fun {first second} hfirst hsecond hnoted ↦ ?_
    exact ((mem_noted_multipartite_iff (hnodes first hfirst) (hnodes second hsecond)).mp hnoted).symm
  · obtain ⟨node, hnode, rfl⟩ := List.getElem_of_mem helement
    obtain ⟨pick, hpick, hapart⟩ :=
      (multipartite (elements.map costOf) (elements.map groupOf)).clique_exhausts
        (fun node ↦ not_mem_noted_self node) (size_multipartite ▸ hnode)
    rw [mem_noted_multipartite_iff (hnodes pick hpick) hnode, not_not] at hapart
    refine ⟨_, List.mem_map_of_mem hpick, ?_⟩
    rw [← hapart, List.getElem_eq_getD 0]
  · have hpicks : clique.cost = Cost.sumFrom Cost.zero (clique.picks.map fun pick ↦
        (multipartite (elements.map costOf) (elements.map groupOf)).costOf pick.node) := rfl
    rw [hpicks, List.map_map]
    congr 1
    apply List.map_congr_left
    intro pick hpick
    exact costOf_multipartite (hnodes pick hpick)

end Picks

/-! ## The heaviest of every group -/

section Heaviest

variable {κ : Type} [Cost κ] {graph : Graph κ} {adjacency : Array (List Nat)} {candidates : List Nat}
  {groupOf : Nat → Nat} {amountOf : Nat → Amount κ} {node other : Nat}

/-- The candidates are adjacent if they are of different groups, and what they cost adds up. -/
structure Grouped (graph : Graph κ) (adjacency : Array (List Nat)) (groupOf : Nat → Nat)
    (amountOf : Nat → Amount κ) (candidates : List Nat) : Prop where
  ascending : candidates.Pairwise (· < ·)
  neighbours : ∀ first ∈ candidates, ∀ second ∈ candidates,
    (second ∈ adjacency.getD first [] ↔ groupOf second ≠ groupOf first)
  stands : ∀ node ∈ candidates, Stands (graph.costOf node) (amountOf node)
  fits : (Amount.total amountOf candidates.toFinset).Fits

/-- The candidates of other groups. -/
def apart (groupOf : Nat → Nat) (candidates : List Nat) (node : Nat) : List Nat :=
  candidates.filter fun other ↦ groupOf other ≠ groupOf node

omit [Cost κ] in
theorem mem_apart : other ∈ apart groupOf candidates node ↔
    other ∈ candidates ∧ groupOf other ≠ groupOf node := by
  simp [apart]

namespace Grouped

theorem common_left (h : graph.Grouped adjacency groupOf amountOf candidates)
    (hadjacency : SortedAdjacency adjacency) (hnode : node ∈ candidates) :
    Ascending.common (adjacency.getD node []) candidates = apart groupOf candidates node := by
  rw [Ascending.common_eq_filter_right (hadjacency node) h.ascending]
  exact List.filter_congr fun other hother ↦ decide_eq_decide.mpr (h.neighbours node hnode other hother)

theorem common_right (h : graph.Grouped adjacency groupOf amountOf candidates)
    (hadjacency : SortedAdjacency adjacency) (hnode : node ∈ candidates) :
    Ascending.common candidates (adjacency.getD node []) = apart groupOf candidates node := by
  rw [Ascending.common_eq_filter_left h.ascending (hadjacency node)]
  exact List.filter_congr fun other hother ↦ decide_eq_decide.mpr (h.neighbours node hnode other hother)

theorem restrict (h : graph.Grouped adjacency groupOf amountOf candidates) (node : Nat) :
    graph.Grouped adjacency groupOf amountOf (apart groupOf candidates node) where
  ascending := h.ascending.filter _
  neighbours first hfirst second hsecond :=
    h.neighbours first (mem_apart.mp hfirst).1 second (mem_apart.mp hsecond).1
  stands other hother := h.stands other (mem_apart.mp hother).1
  fits := by
    refine h.fits.of_le (Amount.total_le_of_subset fun other hother ↦ ?_)
    exact List.mem_toFinset.mpr (mem_apart.mp (List.mem_toFinset.mp hother)).1

variable [LawfulCost κ]

/-- A candidate weighs what it costs and what the other groups cost. -/
theorem stands_weight (h : graph.Grouped adjacency groupOf amountOf candidates)
    (hadjacency : SortedAdjacency adjacency) (hnode : node ∈ candidates) :
    Stands (graph.weight (adjacency.getD node []) candidates node)
      (amountOf node + Amount.total amountOf (apart groupOf candidates node).toFinset) := by
  have hnodup : (apart groupOf candidates node).Nodup := (h.ascending.imp Nat.ne_of_lt).filter _
  have hself : node ∉ (apart groupOf candidates node).toFinset := fun hmem ↦
    (mem_apart.mp (List.mem_toFinset.mp hmem)).2 rfl
  have hsubset : {node} ∪ (apart groupOf candidates node).toFinset ⊆ candidates.toFinset := by
    refine Finset.union_subset (Finset.singleton_subset_iff.mpr (List.mem_toFinset.mpr hnode)) ?_
    exact fun other hother ↦ List.mem_toFinset.mpr (mem_apart.mp (List.mem_toFinset.mp hother)).1
  have hfits := h.fits.of_le (Amount.total_le_of_subset hsubset)
  rw [Amount.total_singleton_union hself] at hfits
  rw [weight, h.common_left hadjacency hnode, Amount.total_toFinset hnodup]
  rw [Amount.total_toFinset hnodup] at hfits
  exact (h.stands node hnode).sumFrom
    (fun other hother ↦ (h.stands other (mem_apart.mp hother).1).adds) hfits

/-- Of the candidates of its group the heaviest one costs most. -/
theorem le_of_heaviest? (h : graph.Grouped adjacency groupOf amountOf candidates)
    (hadjacency : SortedAdjacency adjacency)
    (hheaviest : graph.heaviest? adjacency candidates = some node) (hother : other ∈ candidates)
    (hgroup : groupOf other = groupOf node) : toLex (amountOf other) ≤ toLex (amountOf node) := by
  have hweight := weight_le_of_heaviest? hheaviest hother
  have hsame : apart groupOf candidates other = apart groupOf candidates node := by
    rw [apart, apart, hgroup]
  rw [(h.stands_weight hadjacency hother).le_iff
    (h.stands_weight hadjacency (mem_of_heaviest? hheaviest)), hsame, toLex_add, toLex_add] at hweight
  exact le_of_add_le_add_right hweight

/-- Every pick costs most among the candidates of its group. -/
theorem le_of_grow (h : graph.Grouped adjacency groupOf amountOf candidates)
    (hadjacency : SortedAdjacency adjacency) (steps : Nat) :
    ∀ pick ∈ graph.grow adjacency steps candidates, ∀ other ∈ candidates,
      groupOf other = groupOf pick.node → toLex (amountOf other) ≤ toLex (amountOf pick.node) := by
  induction steps generalizing candidates with
  | zero => simp [grow]
  | succ steps ih =>
    intro pick hpick other hother hgroup
    rw [grow] at hpick
    split at hpick
    · cases hpick
    · rename_i node hheaviest
      rw [h.common_right hadjacency (mem_of_heaviest? hheaviest)] at hpick
      rcases List.mem_cons.mp hpick with rfl | hlater
      · exact h.le_of_heaviest? hadjacency hheaviest hother hgroup
      · -- A later pick is of another group, so all candidates of its group are left.
        have hleft := (grow_spec hadjacency (h.restrict node).ascending steps).1 pick hlater
        have hapart : groupOf other ≠ groupOf node := hgroup ▸ (mem_apart.mp hleft).2
        exact ih (h.restrict node) pick hlater other (mem_apart.mpr ⟨hother, hapart⟩) hgroup

end Grouped

variable [LawfulCost κ] {elements picked : List Nat} {costOf : Nat → κ} {weightOf : Nat → Amount κ}

omit [LawfulCost κ] in
theorem grouped_multipartite
    (hstands : ∀ element ∈ elements, Stands (costOf element) (weightOf element))
    (hfits : Amount.Fits (elements.map weightOf).sum) :
    let graph := multipartite (elements.map costOf) (elements.map groupOf)
    graph.Grouped graph.adjacency (fun node ↦ groupOf (elements.getD node 0))
      (fun node ↦ weightOf (elements.getD node 0)) (List.range graph.size) := by
  intro graph
  have hsize : graph.size = elements.length := size_multipartite
  have hweights : (List.range graph.size).map (fun node ↦ weightOf (elements.getD node 0)) =
      elements.map weightOf := by
    apply List.ext_getElem (by simp [hsize])
    intro node hnode hbound
    simp [(List.length_map weightOf ▸ hbound : node < elements.length)]
  refine ⟨List.pairwise_lt_range, fun first hfirst second hsecond ↦ ?_, fun node hnode ↦ ?_, ?_⟩
  · rw [List.mem_range, hsize] at hfirst hsecond
    rw [getD_adjacency, Ascending.mem_ofList]
    exact mem_noted_multipartite_iff hfirst hsecond
  · rw [List.mem_range, hsize] at hnode
    rw [costOf_multipartite hnode, ← @List.getElem_eq_getD _ _ _ hnode 0]
    exact hstands _ (List.getElem_mem hnode)
  · rw [Amount.total_toFinset List.nodup_range, hweights]
    exact hfits

/-- Every element that is picked is one of the heaviest of its group. -/
theorem le_of_picked (hpicked :
      (multipartite (elements.map costOf) (elements.map groupOf)).clique.picks.map
        (fun pick ↦ elements[pick.node]?) = picked.map some)
    (hstands : ∀ element ∈ elements, Stands (costOf element) (weightOf element))
    (hfits : Amount.Fits (elements.map weightOf).sum) :
    ∀ first ∈ picked, ∀ element ∈ elements, groupOf element = groupOf first →
      toLex (weightOf element) ≤ toLex (weightOf first) := by
  intro first hfirst element helement hgroup
  obtain ⟨pick, hpick, hplace⟩ := exists_pick_of_picked hpicked hfirst
  obtain ⟨hbound, rfl⟩ := List.getElem?_eq_some_iff.mp hplace
  obtain ⟨node, hnode, rfl⟩ := List.getElem_of_mem helement
  rw [List.getElem_eq_getD 0, List.getElem_eq_getD 0] at hgroup ⊢
  exact (grouped_multipartite hstands hfits).le_of_grow (sortedAdjacency _) _ pick hpick node
    (List.mem_range.mpr (size_multipartite ▸ hnode)) hgroup

end Heaviest

end SetCover.Graph

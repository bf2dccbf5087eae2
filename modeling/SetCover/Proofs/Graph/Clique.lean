import Mathlib.Data.List.Sort
import SetCover.Graph.Clique

/-!
# Cliques grown greedily

Every pick is a candidate, and the candidates after it are neighbours of it.  So the nodes that are
picked are adjacent to each other.  There is a pick as long as there are candidates, and a pick is no
candidate any more unless it is its own neighbour; so no node is left that could be added.
-/

namespace SetCover

/-! ## Common elements -/

namespace Ascending

variable {left right : List Nat}

theorem common_eq_filter_left (hleft : left.Pairwise (· < ·)) (hright : right.Pairwise (· < ·)) :
    common left right = left.filter (· ∈ right) := by
  refine (pairwise_common hleft hright).eq_of_mem_iff (hleft.filter _) fun element ↦ ?_
  rw [mem_common hleft hright, List.mem_filter, decide_eq_true_iff]

theorem common_eq_filter_right (hleft : left.Pairwise (· < ·)) (hright : right.Pairwise (· < ·)) :
    common left right = right.filter (· ∈ left) := by
  refine (pairwise_common hleft hright).eq_of_mem_iff (hright.filter _) fun element ↦ ?_
  rw [mem_common hleft hright, List.mem_filter, decide_eq_true_iff, and_comm]

end Ascending

namespace Graph

/-! ## Picks -/

variable {κ : Type} [Cost κ] {graph : Graph κ} {adjacency : Array (List Nat)} {candidates : List Nat}
  {node : Nat}

/-- Of the elements of greatest score the first one is found. -/
theorem exists_append_of_maxOn? {α : Type} {score : α → κ} {elements : List α} {greatest : α}
    (h : elements.maxOn? score = some greatest) :
    ∃ before after, elements = before ++ greatest :: after ∧
      (∀ element ∈ before, score element < score greatest) ∧
      ∀ element ∈ after, score element ≤ score greatest := by
  have hpreorder : Std.IsLinearPreorder κ := .of_ord
  induction elements with
  | nil => cases h
  | cons first rest ih =>
    rw [List.maxOn?_cons, Option.some.injEq] at h
    cases hrest : rest.maxOn? score with
    | none =>
      have hempty : rest = [] := by
        cases rest with
        | nil => rfl
        | cons =>
          rw [List.maxOn?_cons] at hrest
          cases hrest
      rw [hrest, Option.elim_none] at h
      exact ⟨[], [], by rw [h, hempty, List.nil_append], by simp, by simp⟩
    | some next =>
      rw [hrest, Option.elim_some] at h
      by_cases hle : score next ≤ score first
      · obtain rfl : first = greatest := (maxOn_eq_left hle).symm.trans h
        refine ⟨[], rest, rfl, by simp, fun element helement ↦ ?_⟩
        have hnext := @List.le_apply_get_maxOn?_of_mem _ _ _ _ _ score _ _ helement
        simp only [hrest, Option.get_some] at hnext
        exact Std.le_trans hnext hle
      · obtain rfl : next = greatest := (maxOn_eq_right hle).symm.trans h
        obtain ⟨before, after, rfl, hbefore, hafter⟩ := ih hrest
        refine ⟨first :: before, after, rfl, fun element helement ↦ ?_, hafter⟩
        rcases List.mem_cons.mp helement with rfl | helement
        · exact Std.not_le.mp hle
        · exact hbefore element helement

/-- The pick is the first of the heaviest candidates. -/
theorem exists_append_of_heaviest? (h : graph.heaviest? adjacency candidates = some node) :
    let weightOf (node : Nat) := graph.weight (adjacency.getD node []) candidates node
    ∃ before after, candidates = before ++ node :: after ∧
      (∀ other ∈ before, weightOf other < weightOf node) ∧
      ∀ other ∈ after, weightOf other ≤ weightOf node := by
  intro weightOf
  rw [heaviest?, Option.map_eq_some_iff] at h
  obtain ⟨weighted, hweighted, hnode⟩ := h
  obtain ⟨before, after, hsplit, hbefore, hafter⟩ := exists_append_of_maxOn? hweighted
  obtain ⟨first, rest, rfl, rfl, hrest⟩ := List.map_eq_append_iff.mp hsplit
  obtain ⟨picked, last, rfl, rfl, rfl⟩ := List.map_eq_cons_iff.mp hrest
  obtain rfl : picked = node := hnode
  refine ⟨first, last, rfl, fun other hother ↦ ?_, fun other hother ↦ ?_⟩
  · exact hbefore _ (List.mem_map_of_mem hother)
  · exact hafter _ (List.mem_map_of_mem hother)

theorem mem_of_heaviest? (h : graph.heaviest? adjacency candidates = some node) :
    node ∈ candidates := by
  obtain ⟨before, after, rfl, -⟩ := exists_append_of_heaviest? h
  exact List.mem_append_right before List.mem_cons_self

theorem weight_le_of_heaviest? {other : Nat} (h : graph.heaviest? adjacency candidates = some node)
    (hother : other ∈ candidates) :
    graph.weight (adjacency.getD other []) candidates other ≤
      graph.weight (adjacency.getD node []) candidates node := by
  have hpreorder : Std.IsLinearPreorder κ := .of_ord
  obtain ⟨before, after, hsplit, hbefore, hafter⟩ := exists_append_of_heaviest? h
  rw [hsplit, List.mem_append, List.mem_cons] at hother
  rcases hother with hother | rfl | hother
  · exact Std.le_of_lt (hbefore other hother)
  · exact Std.le_refl _
  · exact hafter other hother

/-- There is a heaviest candidate unless there are no candidates. -/
theorem isSome_heaviest?_iff :
    (graph.heaviest? adjacency candidates).isSome ↔ candidates ≠ [] := by
  rw [heaviest?, Option.isSome_map, List.isSome_maxOn?_iff, ne_eq, List.map_eq_nil_iff]

/-- The lists of neighbours are ascending. -/
def SortedAdjacency (adjacency : Array (List Nat)) : Prop :=
  ∀ node, (adjacency.getD node []).Pairwise (· < ·)

theorem grow_spec (hadjacency : SortedAdjacency adjacency) (hcandidates : candidates.Pairwise (· < ·))
    (steps : Nat) :
    (∀ pick ∈ graph.grow adjacency steps candidates, pick.node ∈ candidates) ∧
      (graph.grow adjacency steps candidates).Pairwise fun first second ↦
        second.node ∈ adjacency.getD first.node [] := by
  induction steps generalizing candidates with
  | zero => exact ⟨by simp [grow], .nil⟩
  | succ steps ih =>
    rw [grow]
    split
    · exact ⟨by simp, .nil⟩
    · rename_i node hheaviest
      have hcommon {other : Nat} : other ∈ Ascending.common candidates (adjacency.getD node []) ↔
          other ∈ candidates ∧ other ∈ adjacency.getD node [] :=
        Ascending.mem_common hcandidates (hadjacency node)
      obtain ⟨hpicks, hpairs⟩ := ih (Ascending.pairwise_common hcandidates (hadjacency node))
      refine ⟨fun pick hpick ↦ ?_, List.pairwise_cons.mpr ⟨fun pick hpick ↦ ?_, hpairs⟩⟩
      · rcases List.mem_cons.mp hpick with rfl | hpick
        · exact mem_of_heaviest? hheaviest
        · exact (hcommon.mp (hpicks pick hpick)).1
      · exact (hcommon.mp (hpicks pick hpick)).2

/-- A pick is no candidate any more. -/
theorem length_common_lt (hadjacency : SortedAdjacency adjacency)
    (hcandidates : candidates.Pairwise (· < ·)) (hnode : node ∈ candidates)
    (hloop : node ∉ adjacency.getD node []) :
    (Ascending.common candidates (adjacency.getD node [])).length < candidates.length := by
  rw [Ascending.common_eq_filter_left hcandidates (hadjacency node)]
  exact List.length_filter_lt_length_iff_exists.mpr ⟨node, hnode, by simpa using hloop⟩

/-! ## The end of the growth -/

/-- The candidates that some picks leave: those adjacent to all of them. -/
def remaining (adjacency : Array (List Nat)) (candidates : List Nat) (picks : List Pick) : List Nat :=
  picks.foldl (fun candidates pick ↦ Ascending.common candidates (adjacency.getD pick.node [])) candidates

omit [Cost κ] in
theorem mem_remaining (hadjacency : SortedAdjacency adjacency) (hcandidates : candidates.Pairwise (· < ·))
    {picks : List Pick} : node ∈ remaining adjacency candidates picks ↔
      node ∈ candidates ∧ ∀ pick ∈ picks, node ∈ adjacency.getD pick.node [] := by
  induction picks generalizing candidates with
  | nil => simp [remaining]
  | cons pick rest ih =>
    have hsorted := Ascending.pairwise_common hcandidates (hadjacency pick.node)
    rw [remaining, List.foldl_cons, ← remaining, ih hsorted,
      Ascending.mem_common hcandidates (hadjacency pick.node), List.forall_mem_cons, and_assoc]

/-- Every pick is the heaviest of the candidates that the picks before it leave. -/
theorem heaviest?_of_grow {steps : Nat} {earlier later : List Pick} {pick : Pick}
    (hgrow : graph.grow adjacency steps candidates = earlier ++ pick :: later) :
    pick.candidates = (remaining adjacency candidates earlier).length ∧
      graph.heaviest? adjacency (remaining adjacency candidates earlier) = some pick.node := by
  induction steps generalizing candidates earlier with
  | zero => simp [grow] at hgrow
  | succ steps ih =>
    rw [grow] at hgrow
    split at hgrow
    · simp at hgrow
    · rename_i node hheaviest
      cases earlier with
      | nil =>
        obtain rfl := (List.cons.inj hgrow).1
        exact ⟨rfl, hheaviest⟩
      | cons head earlier =>
        obtain ⟨rfl, hrest⟩ := List.cons.inj hgrow
        have hlater := ih hrest
        exact hlater

/-- As long as the picks so far leave candidates, and steps are left, there is a next pick. -/
theorem exists_pick_of_remaining {steps : Nat} {earlier later : List Pick}
    (hgrow : graph.grow adjacency steps candidates = earlier ++ later) (hsteps : earlier.length < steps)
    (hleft : remaining adjacency candidates earlier ≠ []) : ∃ pick rest, later = pick :: rest ∧
      graph.heaviest? adjacency (remaining adjacency candidates earlier) = some pick.node := by
  induction steps generalizing candidates earlier with
  | zero => exact absurd hsteps (Nat.not_lt_zero _)
  | succ steps ih =>
    rw [grow] at hgrow
    split at hgrow
    · rename_i hnone
      obtain ⟨rfl, rfl⟩ := List.append_eq_nil_iff.mp hgrow.symm
      have hsome : (graph.heaviest? adjacency candidates).isSome := isSome_heaviest?_iff.mpr hleft
      rw [hnone] at hsome
      cases hsome
    · rename_i node hheaviest
      cases earlier with
      | nil => exact ⟨_, _, hgrow.symm, hheaviest⟩
      | cons head earlier =>
        obtain ⟨rfl, hrest⟩ := List.cons.inj hgrow
        have hnext := ih hrest (Nat.lt_of_succ_lt_succ hsteps) hleft
        exact hnext

/-- With a step for every candidate, the clique grows until no candidate is left. -/
theorem remaining_grow (hadjacency : SortedAdjacency adjacency)
    (hcandidates : candidates.Pairwise (· < ·))
    (hloop : ∀ node ∈ candidates, node ∉ adjacency.getD node []) {steps : Nat}
    (hsteps : candidates.length ≤ steps) :
    remaining adjacency candidates (graph.grow adjacency steps candidates) = [] := by
  induction steps generalizing candidates with
  | zero => exact List.length_eq_zero_iff.mp (Nat.le_zero.mp hsteps)
  | succ steps ih =>
    rw [grow]
    split
    · rename_i hnone
      by_contra hleft
      have hsome : (graph.heaviest? adjacency candidates).isSome := isSome_heaviest?_iff.mpr hleft
      rw [hnone] at hsome
      cases hsome
    · rename_i picked hheaviest
      have hpicked := mem_of_heaviest? hheaviest
      have hfewer := length_common_lt hadjacency hcandidates hpicked (hloop picked hpicked)
      have hleft := ih (Ascending.pairwise_common hcandidates (hadjacency picked))
        (fun other hother ↦ hloop other
          ((Ascending.mem_common hcandidates (hadjacency picked)).mp hother).1) (by omega)
      exact hleft

omit [Cost κ] in
theorem getD_adjacency (graph : Graph κ) (node : Nat) :
    graph.adjacency.getD node [] = Ascending.ofList (graph.noted.getD node []) := by
  by_cases hnode : node < graph.noted.size
  · simp [adjacency, hnode]
  · have hempty : Ascending.ofList [] = [] := by simp [Ascending.ofList, Ascending.distinct]
    simp [adjacency, hnode, hempty]

omit [Cost κ] in
theorem sortedAdjacency (graph : Graph κ) : SortedAdjacency graph.adjacency := fun node ↦ by
  rw [getD_adjacency]
  exact Ascending.pairwise_ofList _

/-- The picks are nodes of the graph, and of two picks the second was noted down as a neighbour of the
first. -/
theorem clique_spec (graph : Graph κ) :
    (∀ pick ∈ graph.clique.picks, pick.node < graph.size) ∧
      graph.clique.picks.Pairwise fun first second ↦
        second.node ∈ graph.noted.getD first.node [] := by
  have hrange : (List.range graph.size).Pairwise (· < ·) := List.pairwise_lt_range
  obtain ⟨hpicks, hpairs⟩ := @grow_spec _ _ graph _ _ graph.sortedAdjacency hrange graph.size
  refine ⟨fun pick hpick ↦ List.mem_range.mp (hpicks pick hpick), hpairs.imp fun hadjacent ↦ ?_⟩
  rw [getD_adjacency] at hadjacent
  exact Ascending.mem_ofList.mp hadjacent

/-- How a clique has been grown to its end: every pick is the heaviest of the candidates that the picks
before it leave, and all of them together leave none. -/
structure Grown (graph : Graph κ) (clique : Clique κ) : Prop where
  heaviest : ∀ earlier pick later, clique.picks = earlier ++ pick :: later →
    pick.candidates = (remaining graph.adjacency (List.range graph.size) earlier).length ∧
      graph.heaviest? graph.adjacency (remaining graph.adjacency (List.range graph.size) earlier) =
        some pick.node
  ended : remaining graph.adjacency (List.range graph.size) clique.picks = []

theorem grown_clique (graph : Graph κ) (hloop : ∀ node, node ∉ graph.noted.getD node []) :
    graph.Grown graph.clique := by
  refine ⟨fun _ _ _ ↦ heaviest?_of_grow, remaining_grow graph.sortedAdjacency List.pairwise_lt_range
    (fun node _ hself ↦ hloop node ?_) List.length_range.le⟩
  rw [getD_adjacency] at hself
  exact Ascending.mem_ofList.mp hself

/-- In a graph without loops every node is picked or fails to be a neighbour of a pick. -/
theorem clique_exhausts (graph : Graph κ) (hloop : ∀ node, node ∉ graph.noted.getD node []) {node : Nat}
    (hnode : node < graph.size) :
    ∃ pick ∈ graph.clique.picks, node ∉ graph.noted.getD pick.node [] := by
  by_contra hall
  push Not at hall
  have hleft : node ∈ remaining graph.adjacency (List.range graph.size) graph.clique.picks := by
    refine (mem_remaining graph.sortedAdjacency List.pairwise_lt_range).mpr
      ⟨List.mem_range.mpr hnode, fun pick hpick ↦ ?_⟩
    rw [getD_adjacency]
    exact Ascending.mem_ofList.mpr (hall pick hpick)
  rw [(graph.grown_clique hloop).ended] at hleft
  cases hleft

end Graph

end SetCover

import SetCover.Cost.Single
import SetCover.Proofs.Graph.Clique
import SetCover.Proofs.Graph.Requests

/-!
# The greedy rule

Among other nodes a node weighs what it costs and what its neighbours among them cost.  Every pick of a
clique is the first of the heaviest nodes among those adjacent to all earlier picks, the first pick
among all nodes, and the growth ends when no such node is left.  This leaves no choice, so the clique is
a matter of the costs and the edges alone: however these came about, the picks and their cost are the
same.
-/

namespace SetCover.Graph

variable {κ : Type} [Cost κ] {graph : Graph κ} {size node other : Nat} {candidates picked : List Nat}

/-! ## Enough steps -/

/-- The growth ends by itself: with a step for every candidate, further steps pick nothing. -/
theorem grow_of_length_le {adjacency : Array (List Nat)} (hadjacency : SortedAdjacency adjacency)
    (hcandidates : candidates.Pairwise (· < ·))
    (hloop : ∀ node ∈ candidates, node ∉ adjacency.getD node []) {steps more : Nat}
    (hsteps : candidates.length ≤ steps) (hmore : steps ≤ more) :
    graph.grow adjacency more candidates = graph.grow adjacency steps candidates := by
  induction steps generalizing candidates more with
  | zero =>
    obtain rfl := List.length_eq_zero_iff.mp (Nat.le_zero.mp hsteps)
    cases more <;> rfl
  | succ steps ih =>
    obtain ⟨more, rfl⟩ := Nat.exists_eq_add_one_of_ne_zero (by omega : more ≠ 0)
    rw [grow, grow]
    split
    · rfl
    · rename_i picked hheaviest
      have hpicked := mem_of_heaviest? hheaviest
      have hfewer := length_common_lt hadjacency hcandidates hpicked (hloop picked hpicked)
      have hleft : ∀ node ∈ Ascending.common candidates (adjacency.getD picked []),
          node ∉ adjacency.getD node [] := fun node hnode ↦
        hloop node ((Ascending.mem_common hcandidates (hadjacency picked)).mp hnode).1
      rw [ih (Ascending.pairwise_common hcandidates (hadjacency picked)) hleft (by omega)
        (Nat.le_of_succ_le_succ hmore)]

/-! ## Picks by costs and edges -/

section Rule

variable {costOf : Nat → κ} {edges : Finset (Sym2 Nat)}

/-- What a node weighs among others: its cost and then, in their order, the costs of its neighbours
among them. -/
def load (costOf : Nat → κ) (edges : Finset (Sym2 Nat)) (among : List Nat) (node : Nat) : κ :=
  Cost.sumFrom (costOf node) ((among.filter fun other ↦ s(node, other) ∈ edges).map costOf)

/-- The nodes that are adjacent to all of the picked ones, in ascending order. -/
def commonNeighbours (size : Nat) (edges : Finset (Sym2 Nat)) (picked : List Nat) : List Nat :=
  (List.range size).filter fun node ↦ ∀ member ∈ picked, s(member, node) ∈ edges

/-- The node is the first of the heaviest candidates. -/
structure Prevails (costOf : Nat → κ) (edges : Finset (Sym2 Nat)) (candidates : List Nat)
    (node : Nat) : Prop where
  mem : node ∈ candidates
  heaviest : ∀ other ∈ candidates,
    load costOf edges candidates other ≤ load costOf edges candidates node
  first : ∀ other ∈ candidates, other < node →
    load costOf edges candidates other < load costOf edges candidates node

/-- Only one node prevails. -/
theorem Prevails.eq (h : Prevails costOf edges candidates node)
    (hother : Prevails costOf edges candidates other) : node = other := by
  have hpreorder : Std.IsLinearPreorder κ := .of_ord
  rcases Nat.lt_trichotomy node other with hless | heq | hless
  · exact absurd (hother.first node h.mem hless) (Std.not_lt.mpr (h.heaviest other hother.mem))
  · exact heq
  · exact absurd (h.first other hother.mem hless) (Std.not_lt.mpr (hother.heaviest node h.mem))

theorem pairwise_commonNeighbours : (commonNeighbours size edges picked).Pairwise (· < ·) :=
  List.pairwise_lt_range.filter _

omit [Cost κ] in
theorem eq_of_getD_eq {α : Type} {first second : Array α} (fallback : α)
    (hsize : first.size = second.size)
    (h : ∀ index < first.size, first.getD index fallback = second.getD index fallback) :
    first = second := by
  apply Array.ext hsize
  intro index hindex hbound
  rw [Array.getElem_eq_getD fallback, Array.getElem_eq_getD fallback]
  exact h index hindex

namespace Depicts

theorem mem_adjacency_iff (h : graph.Depicts size costOf edges) :
    other ∈ graph.adjacency.getD node [] ↔ s(node, other) ∈ edges := by
  rw [getD_adjacency, Ascending.mem_ofList, h.mem_noted_iff]

theorem weight_eq (h : graph.Depicts size costOf edges) (hcandidates : candidates.Pairwise (· < ·))
    (hinside : ∀ other ∈ candidates, other < size) (hnode : node ∈ candidates) :
    graph.weight (graph.adjacency.getD node []) candidates node = load costOf edges candidates node := by
  have hneighbours : Ascending.common (graph.adjacency.getD node []) candidates =
      candidates.filter fun other ↦ s(node, other) ∈ edges := by
    rw [Ascending.common_eq_filter_right (graph.sortedAdjacency node) hcandidates]
    exact List.filter_congr fun other _ ↦ decide_eq_decide.mpr h.mem_adjacency_iff
  rw [weight, load, hneighbours, h.costOf_eq node (hinside node hnode)]
  congr 1
  apply List.map_congr_left
  intro other hother
  exact h.costOf_eq other (hinside other (List.mem_of_mem_filter hother))

theorem prevails_of_heaviest? (h : graph.Depicts size costOf edges)
    (hcandidates : candidates.Pairwise (· < ·)) (hinside : ∀ other ∈ candidates, other < size)
    (hheaviest : graph.heaviest? graph.adjacency candidates = some node) :
    Prevails costOf edges candidates node := by
  have hnode := mem_of_heaviest? hheaviest
  have hweight {other : Nat} (hother : other ∈ candidates) :=
    h.weight_eq hcandidates hinside hother
  refine ⟨hnode, fun other hother ↦ ?_, fun other hother hless ↦ ?_⟩
  · rw [← hweight hother, ← hweight hnode]
    exact weight_le_of_heaviest? hheaviest hother
  · rw [← hweight hother, ← hweight hnode]
    obtain ⟨before, after, rfl, hbefore, -⟩ := exists_append_of_heaviest? hheaviest
    -- What comes after the node in an ascending list is greater than it.
    have hafter := (List.pairwise_cons.mp (List.pairwise_append.mp hcandidates).2.1).1
    rcases List.mem_append.mp hother with hother | hother
    · exact hbefore other hother
    · rcases List.mem_cons.mp hother with rfl | hother
      · exact absurd hless (Nat.lt_irrefl _)
      · exact absurd hless (Nat.lt_asymm (hafter other hother))

/-- The candidates that some picks leave are the nodes adjacent to all of them. -/
theorem remaining_eq (h : graph.Depicts size costOf edges) (picks : List Pick) :
    remaining graph.adjacency (List.range size) picks =
      commonNeighbours size edges (picks.map Pick.node) := by
  refine List.Pairwise.eq_of_mem_iff ?_ pairwise_commonNeighbours fun node ↦ ?_
  · induction picks using List.reverseRecOn with
    | nil => exact List.pairwise_lt_range
    | append_singleton picks pick ih =>
      rw [remaining, List.foldl_append]
      exact Ascending.pairwise_common ih (graph.sortedAdjacency pick.node)
  · simp only [mem_remaining graph.sortedAdjacency List.pairwise_lt_range, commonNeighbours,
      List.mem_filter, List.forall_mem_map, h.mem_adjacency_iff, decide_eq_true_iff]

/-- Every node of the clique prevails among those that are adjacent to all earlier ones. -/
theorem prevails_of_nodes (h : graph.Depicts size costOf edges) {earlier later : List Nat}
    (hnodes : graph.clique.nodes = earlier ++ node :: later) :
    Prevails costOf edges (commonNeighbours size edges earlier) node := by
  obtain ⟨before, rest, hpicks, rfl, hrest⟩ := List.map_eq_append_iff.mp hnodes
  obtain ⟨pick, after, rfl, rfl, rfl⟩ := List.map_eq_cons_iff.mp hrest
  have hheaviest := (heaviest?_of_grow hpicks).2
  rw [h.size_eq, h.remaining_eq] at hheaviest
  exact h.prevails_of_heaviest? pairwise_commonNeighbours
    (fun other hother ↦ List.mem_range.mp (List.mem_of_mem_filter hother)) hheaviest

/-- The growth ends when no node is adjacent to all that were picked. -/
theorem commonNeighbours_nodes (h : graph.Depicts size costOf edges)
    (hloop : ∀ node, s(node, node) ∉ edges) : commonNeighbours size edges graph.clique.nodes = [] := by
  have hended := (graph.grown_clique fun node ↦ (h.mem_noted_iff node node).not.mpr (hloop node)).ended
  rw [h.size_eq, h.remaining_eq] at hended
  exact hended

theorem lt_of_mem_nodes (h : graph.Depicts size costOf edges) (hnode : node ∈ graph.clique.nodes) :
    node < size := by
  obtain ⟨pick, hpick, rfl⟩ := List.mem_map.mp hnode
  exact (graph.clique_spec.1 pick hpick).trans_eq h.size_eq

theorem pairwise_nodes (h : graph.Depicts size costOf edges) :
    graph.clique.nodes.Pairwise fun first second ↦ s(first, second) ∈ edges :=
  List.pairwise_map.mpr (graph.clique_spec.2.imp fun hnoted ↦ (h.mem_noted_iff _ _).mp hnoted)

theorem cost_clique (h : graph.Depicts size costOf edges) :
    graph.clique.cost = graph.clique.nodes.foldl (fun total node ↦ total + costOf node) Cost.zero := by
  have hcosts : graph.clique.picks.map (fun pick ↦ graph.costOf pick.node) =
      graph.clique.nodes.map costOf := by
    rw [Clique.nodes, List.map_map]
    apply List.map_congr_left
    intro pick hpick
    exact h.costOf_eq _ (h.lt_of_mem_nodes (List.mem_map_of_mem hpick))
  change Cost.sumFrom Cost.zero (graph.clique.picks.map fun pick ↦ graph.costOf pick.node) = _
  rw [hcosts, Cost.sumFrom, List.foldl_map]

/-- The costs and the edges settle the costs and the ordered neighbours. -/
theorem tidied_eq (h : graph.Depicts size costOf edges) {next : Graph κ}
    (hnext : next.Depicts size costOf edges) : next.tidied = graph.tidied := by
  have hadjacency : next.adjacency = graph.adjacency := by
    refine eq_of_getD_eq [] ?_ fun node _ ↦ ?_
    · rw [adjacency, adjacency, Array.size_map, Array.size_map, h.size_noted, hnext.size_noted]
    · apply (next.sortedAdjacency node).eq_of_mem_iff (graph.sortedAdjacency node)
      intro other
      rw [h.mem_adjacency_iff, hnext.mem_adjacency_iff]
  have hcosts : next.costs = graph.costs := by
    refine eq_of_getD_eq Cost.zero (hnext.size_eq.trans h.size_eq.symm) fun node hnode ↦ ?_
    have hsize : node < size := hnode.trans_eq hnext.size_eq
    exact (hnext.costOf_eq node hsize).trans (h.costOf_eq node hsize).symm
  rw [tidied, tidied, hadjacency, hcosts]

end Depicts

end Rule

/-! ## Cliques that were asked for -/

/-- The growth reads the costs off the graph and the edges off the ordered neighbours. -/
theorem clique_eq_of_tidied_eq {next : Graph κ} (h : next.tidied = graph.tidied) :
    next.clique = graph.clique := by
  obtain ⟨costs, noted⟩ := graph
  obtain ⟨nextCosts, nextNoted⟩ := next
  obtain ⟨rfl, hadjacency⟩ := Graph.mk.inj h
  have hgrow (steps : Nat) (candidates : List Nat) :
      grow ⟨nextCosts, nextNoted⟩ (adjacency ⟨nextCosts, noted⟩) steps candidates =
        grow ⟨nextCosts, noted⟩ (adjacency ⟨nextCosts, noted⟩) steps candidates := by
    induction steps generalizing candidates with
    | zero => rfl
    | succ steps ih =>
      rw [grow, grow]
      simp only [ih]
      rfl
  rw [clique, clique, hadjacency]
  simp only [size, hgrow]
  rfl

/-- The clique of a graph that was made by any requests.  Its growth needs no more steps than there are
nodes.  It is one: its nodes are different and adjacent to each other, and every other node fails to be
adjacent to one of them.  Its cost is added from zero in the order of the picks, a node costing what it
was given last. -/
theorem maximal_of_solve (size : Nat) (requests : List (Request κ)) :
    let graph := afterAll requests (isolated size)
    let clique := graph.solve.1
    (∀ steps, size ≤ steps →
      graph.grow graph.adjacency steps (List.range size) = clique.picks) ∧
    (∀ node ∈ clique.nodes, node < size) ∧ clique.nodes.Nodup ∧
    clique.nodes.Pairwise (fun first second ↦ s(first, second) ∈ edges size requests) ∧
    (∀ node < size, node ∉ clique.nodes →
      ∃ member ∈ clique.nodes, s(member, node) ∉ edges size requests) ∧
    clique.cost = clique.nodes.foldl (fun total node ↦ total + lastCost requests node) Cost.zero ∧
    (size = 0 → clique = ⟨[], Cost.zero⟩) := by
  intro graph clique
  have hdepicts : graph.Depicts size (lastCost requests) (edges size requests) :=
    depicts_afterAll size requests
  have hloop (node : Nat) : s(node, node) ∉ edges size requests := fun hedge ↦
    not_isDiag_of_mem_edges hedge rfl
  have hsize : graph.size = size := hdepicts.size_eq
  have hpicks : clique.picks = graph.grow graph.adjacency size (List.range size) := by
    change graph.grow graph.adjacency graph.size (List.range graph.size) = _
    rw [hsize]
  refine ⟨fun steps hsteps ↦ ?_, fun _ ↦ hdepicts.lt_of_mem_nodes,
    hdepicts.pairwise_nodes.imp fun hedge heq ↦ not_isDiag_of_mem_edges hedge heq,
    hdepicts.pairwise_nodes, fun node hnode _ ↦ ?_, hdepicts.cost_clique, ?_⟩
  · rw [hpicks]
    exact grow_of_length_le graph.sortedAdjacency List.pairwise_lt_range
      (fun node _ ↦ hdepicts.mem_adjacency_iff.not.mpr (hloop node)) List.length_range.le hsteps
  · obtain ⟨pick, hpick, hapart⟩ := graph.clique_exhausts
      (fun node ↦ (hdepicts.mem_noted_iff node node).not.mpr (hloop node)) (hnode.trans_eq hsize.symm)
    exact ⟨pick.node, List.mem_map_of_mem hpick, (hdepicts.mem_noted_iff _ _).not.mp hapart⟩
  · rintro rfl
    change (⟨clique.picks, Cost.sumFrom Cost.zero (clique.picks.map fun pick ↦
      graph.costOf pick.node)⟩ : Clique κ) = _
    rw [hpicks]
    rfl

/-- Graphs with the same nodes, costs and edges have the same clique, whatever requests they come from.
Every one of its nodes is the first of the heaviest ones among those adjacent to all nodes before it.
A graph that has nodes gives the first of them, and further ones are given until no node is adjacent to
all of them. -/
theorem prevails_of_solve {first second : List (Request κ)}
    (hcosts : ∀ node < size, lastCost first node = lastCost second node)
    (hedges : edges size first = edges size second) :
    let clique := (afterAll first (isolated size)).solve.1
    (afterAll second (isolated size)).solve.1 = clique ∧
      (∀ earlier node later, clique.nodes = earlier ++ node :: later →
        Prevails (lastCost first) (edges size first)
          (commonNeighbours size (edges size first) earlier) node) ∧
      (0 < size → clique.nodes ≠ []) ∧
      commonNeighbours size (edges size first) clique.nodes = [] := by
  intro clique
  have hfirst := depicts_afterAll size first
  have hsecond : (afterAll second (isolated size)).Depicts size (lastCost first) (edges size first) := by
    obtain ⟨hsize, hnoted, hcost, hmem⟩ := depicts_afterAll size second
    refine ⟨hsize, hnoted, fun node hnode ↦ ?_, fun node other ↦ ?_⟩
    · rw [hcost node hnode, hcosts node hnode]
    · rw [hmem, hedges]
  have hended : commonNeighbours size (edges size first) clique.nodes = [] :=
    hfirst.commonNeighbours_nodes fun _ hedge ↦ not_isDiag_of_mem_edges hedge rfl
  refine ⟨clique_eq_of_tidied_eq (hfirst.tidied_eq hsecond), fun _ _ _ ↦ hfirst.prevails_of_nodes,
    fun hsize hnone ↦ ?_, hended⟩
  have hnode : 0 ∈ commonNeighbours size (edges size first) [] := by simpa [commonNeighbours] using hsize
  rw [← hnone, hended] at hnode
  cases hnode

/-- The rule leaves no choice: nodes that follow it to its end go on with the one that prevails. -/
theorem exists_eq_append_of_prevails {costOf : Nat → κ} {edges : Finset (Sym2 Nat)}
    {nodes earlier later : List Nat}
    (hrule : ∀ earlier node later, nodes = earlier ++ node :: later →
      Prevails costOf edges (commonNeighbours size edges earlier) node)
    (hended : commonNeighbours size edges nodes = []) (hnodes : nodes = earlier ++ later)
    (h : Prevails costOf edges (commonNeighbours size edges earlier) node) :
    ∃ rest, nodes = earlier ++ [node] ++ rest := by
  cases later with
  | nil =>
    have hmem := h.mem
    rw [List.append_nil] at hnodes
    rw [← hnodes, hended] at hmem
    cases hmem
  | cons next rest =>
    obtain rfl := h.eq (hrule earlier next rest hnodes)
    exact ⟨rest, by rw [hnodes, List.append_assoc, List.singleton_append]⟩

/-- A triangle with a tail, connected once in order and once in any way, with a loop, an edge to no node
and two cliques in between.  The notes differ, the clique does not; it begins with the node that has the
tail and goes on with the others of the triangle. -/
theorem prevails_of_solve_triangle :
    let costs : List (Request SingleCost) := (List.range 4).map fun node ↦ .setCost node ⟨1.0⟩
    let first := costs ++ [.connect 0 1, .connect 1 2, .connect 2 0, .connect 2 3]
    let second := [.setCost 0 ⟨5.0⟩, .connect 3 2, .solve, .connect 1 1, .connect 0 2] ++ costs ++
      [.connect 1 0, .solve, .connect 2 1, .connect 0 1, .connect 7 0]
    let clique := (afterAll first (isolated 4)).solve.1
    (∀ node < 4, lastCost first node = lastCost second node) ∧ edges 4 first = edges 4 second ∧
      (afterAll first (isolated 4)).noted ≠ (afterAll second (isolated 4)).noted ∧
      (afterAll second (isolated 4)).solve.1 = clique ∧ clique.nodes = [2, 0, 1] ∧
      (∀ earlier node later, [2, 0, 1] = earlier ++ node :: later →
        Prevails (lastCost first) (edges 4 first) (commonNeighbours 4 (edges 4 first) earlier) node) ∧
      commonNeighbours 4 (edges 4 first) [2, 0, 1] = [] := by
  intro costs first second clique
  have hcosts : ∀ node < 4, lastCost first node = lastCost second node := by decide +kernel
  have hedges : edges 4 first = edges 4 second := by decide +kernel
  have hnoted : (afterAll first (isolated 4)).noted ≠ (afterAll second (isolated 4)).noted := by
    decide +kernel
  obtain ⟨hsame, hrule, -, hended⟩ := prevails_of_solve hcosts hedges
  have hall : Prevails (lastCost first) (edges 4 first) (commonNeighbours 4 (edges 4 first) []) 2 :=
    ⟨by decide +kernel, by decide +kernel, by decide +kernel⟩
  have hleft : Prevails (lastCost first) (edges 4 first) (commonNeighbours 4 (edges 4 first) [2]) 0 :=
    ⟨by decide +kernel, by decide +kernel, by decide +kernel⟩
  have hlast : Prevails (lastCost first) (edges 4 first) (commonNeighbours 4 (edges 4 first) [2, 0]) 1 :=
    ⟨by decide +kernel, by decide +kernel, by decide +kernel⟩
  have hnone : commonNeighbours 4 (edges 4 first) [2, 0, 1] = [] := by decide +kernel
  obtain ⟨afterOne, hone⟩ := exists_eq_append_of_prevails hrule hended (List.nil_append _).symm hall
  obtain ⟨afterTwo, htwo⟩ := exists_eq_append_of_prevails hrule hended hone hleft
  obtain ⟨rest, hrest⟩ := exists_eq_append_of_prevails hrule hended htwo hlast
  have hnodes : clique.nodes = [2, 0, 1] := by
    cases rest with
    | nil => exact hrest
    | cons node later =>
      have hmem := (hrule [2, 0, 1] node later hrest).mem
      rw [hnone] at hmem
      cases hmem
  rw [hnodes] at hrule
  exact ⟨hcosts, hedges, hnoted, hsame, hnodes, hrule, hnone⟩

end SetCover.Graph

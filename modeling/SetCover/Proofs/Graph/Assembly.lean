import SetCover.Proofs.Graph.Greedy
import SetCover.Proofs.Graph.Multipartite

/-!
# Graphs of groups, edge by edge

A graph of groups is assembled node by node: a node is connected with the later nodes of other groups,
and then it gets its cost.  No step of this is refused.  The graph that comes of it notes its edges in
another order than the one that lists all nodes of other groups at once, but the costs and the edges are
the same, and so is the clique.
-/

namespace SetCover.Graph

variable {κ : Type} [Cost κ] {graph : Graph κ} {requests : List (Request κ)} {request : Request κ}
  {size first second : Nat}

/-! ## Requests that are carried out -/

/-- Carries out a request, unless it is refused. -/
def Request.perform : Request κ → Graph κ → Except Fault (Graph κ)
  | setCost node cost, graph => graph.setCost node cost
  | connect left right, graph => graph.connect left right
  | solve, graph => .ok graph.solve.2

/-- All nodes that a request names are nodes of a graph of the given size. -/
def Request.Inside (size : Nat) : Request κ → Prop
  | setCost node _ => node < size
  | connect left right => left < size ∧ right < size
  | solve => True

theorem Request.Inside.perform_ok (h : request.Inside graph.size) :
    request.perform graph = .ok (request.after graph) := by
  cases request with
  | setCost node cost =>
    have hset : graph.setCost node cost = .ok _ := if_pos h
    rw [perform, after, hset]
    rfl
  | connect left right =>
    have hconnect : graph.connect left right = .ok _ := if_pos h
    rw [perform, after, hconnect]
    rfl
  | solve => rfl

theorem foldlM_perform (h : ∀ request ∈ requests, request.Inside size) :
    requests.foldlM (fun graph request ↦ request.perform graph) (isolated size) =
      .ok (afterAll requests (isolated size)) := by
  induction requests using List.reverseRecOn with
  | nil => rfl
  | append_singleton requests request ih =>
    have hsize : (afterAll requests (isolated size)).size = size := (depicts_afterAll size requests).size_eq
    have hinside : request.Inside (afterAll requests (isolated size)).size := by
      rw [hsize]
      exact h request (by simp)
    have hlast : afterAll (requests ++ [request]) (isolated size) =
        request.after (afterAll requests (isolated size)) := List.foldl_append
    rw [List.foldlM_append, ih fun other hother ↦ h other (List.mem_append_left _ hother), hlast]
    exact (bind_pure _).trans hinside.perform_ok

omit [Cost κ] in
theorem mem_edges_iff : s(first, second) ∈ edges size requests ↔
    first < size ∧ second < size ∧ first ≠ second ∧
      (.connect first second ∈ requests ∨ .connect second first ∈ requests) := by
  rw [edges, List.mem_toFinset, List.mem_filterMap]
  constructor
  · rintro ⟨request, hrequest, hedge⟩
    cases request with
    | connect left right =>
      obtain ⟨⟨hleft, hright, hne⟩, hsame⟩ := Option.ite_none_right_eq_some.mp hedge
      rcases Sym2.eq_iff.mp (Option.some.inj hsame) with ⟨rfl, rfl⟩ | ⟨rfl, rfl⟩
      · exact ⟨hleft, hright, hne, .inl hrequest⟩
      · exact ⟨hright, hleft, hne.symm, .inr hrequest⟩
    | setCost => cases hedge
    | solve => cases hedge
  · rintro ⟨hfirst, hsecond, hne, hrequest | hrequest⟩
    · exact ⟨_, hrequest, if_pos ⟨hfirst, hsecond, hne⟩⟩
    · refine ⟨_, hrequest, ?_⟩
      rw [Request.edge?, if_pos ⟨hsecond, hfirst, hne.symm⟩, Sym2.eq_swap]

/-- A node that is given one cost only, once or several times, has this cost in the end. -/
theorem lastCost_eq {node : Nat} {cost : κ} (hmem : .setCost node cost ∈ requests)
    (honly : ∀ other, .setCost node other ∈ requests → other = cost) : lastCost requests node = cost := by
  have hcost : ∀ other ∈ requests.filterMap (Request.cost? node), other = cost := by
    intro other hother
    obtain ⟨request, hrequest, heq⟩ := List.mem_filterMap.mp hother
    cases request with
    | setCost changed given =>
      obtain ⟨rfl, hsame⟩ := Option.ite_none_right_eq_some.mp heq
      obtain rfl := Option.some.inj hsame
      exact honly given hrequest
    | connect => cases heq
    | solve => cases heq
  have hne : requests.filterMap (Request.cost? node) ≠ [] :=
    List.ne_nil_of_mem (List.mem_filterMap.mpr ⟨_, hmem, if_pos rfl⟩)
  rw [lastCost, List.getLastD_eq_getLast?, List.getLast?_eq_some_getLast hne]
  exact hcost _ (List.getLast_mem hne)

/-! ## Nodes of groups -/

variable {costs : List κ} {groups : List Nat}

/-- The requests that connect every node with the later ones of other groups and set its cost, node
after node. -/
def assembly (costs : List κ) (groups : List Nat) : List (Request κ) :=
  (List.range groups.length).flatMap fun node ↦
    ((List.range' (node + 1) (groups.length - (node + 1))).filter fun other ↦
      groups.getD node 0 ≠ groups.getD other 0).map (.connect node) ++
    [.setCost node (costs.getD node Cost.zero)]

/-- Assembles the graph of groups from nothing. -/
def assemble (costs : List κ) (groups : List Nat) : Except Fault (Graph κ) :=
  (assembly costs groups).foldlM (fun graph request ↦ request.perform graph) (isolated groups.length)

theorem connect_mem_assembly : .connect first second ∈ assembly costs groups ↔
    first < second ∧ second < groups.length ∧ groups.getD first 0 ≠ groups.getD second 0 := by
  simp only [assembly, List.mem_flatMap, List.mem_range, List.mem_append, List.mem_map, List.mem_filter,
    List.mem_range'_1, decide_eq_true_iff, List.mem_singleton, reduceCtorEq, or_false]
  constructor
  · rintro ⟨node, hnode, other, ⟨hother, hne⟩, heq⟩
    obtain ⟨rfl, rfl⟩ := Request.connect.inj heq
    exact ⟨by omega, by omega, hne⟩
  · rintro ⟨hless, hsecond, hne⟩
    exact ⟨first, by omega, second, ⟨by omega, hne⟩, rfl⟩

theorem setCost_mem_assembly {node : Nat} {cost : κ} : .setCost node cost ∈ assembly costs groups ↔
    node < groups.length ∧ cost = costs.getD node Cost.zero := by
  simp only [assembly, List.mem_flatMap, List.mem_range, List.mem_append, List.mem_map,
    List.mem_singleton, reduceCtorEq, and_false, exists_false, false_or, Request.setCost.injEq]
  constructor
  · rintro ⟨other, hother, rfl, rfl⟩
    exact ⟨hother, rfl⟩
  · rintro ⟨hnode, rfl⟩
    exact ⟨node, hnode, rfl, rfl⟩

theorem inside_of_mem_assembly (h : request ∈ assembly costs groups) :
    request.Inside groups.length := by
  cases request with
  | setCost node cost => exact (setCost_mem_assembly.mp h).1
  | connect left right =>
    obtain ⟨hless, hright, -⟩ := connect_mem_assembly.mp h
    exact ⟨hless.trans hright, hright⟩
  | solve => trivial

/-- The graph that lists the nodes of other groups has the costs and the edges that are asked for. -/
theorem depicts_multipartite (hlength : costs.length = groups.length) :
    (multipartite costs groups).Depicts groups.length (lastCost (assembly costs groups))
      (edges groups.length (assembly costs groups)) where
  size_eq := by simpa [multipartite, Graph.size] using hlength
  size_noted := by simp [multipartite]
  costOf_eq node hnode := by
    have hlast : lastCost (assembly costs groups) node = costs.getD node Cost.zero :=
      lastCost_eq (setCost_mem_assembly.mpr ⟨hnode, rfl⟩) fun _ hother ↦ (setCost_mem_assembly.mp hother).2
    rw [hlast]
    simp [multipartite, Graph.costOf]
  mem_noted_iff node other := by
    rw [mem_edges_iff, connect_mem_assembly, connect_mem_assembly]
    by_cases hnode : node < groups.length
    · rw [mem_noted_iff hnode]
      constructor
      · rintro ⟨hother, hne⟩
        have hdifferent : node ≠ other := by
          rintro rfl
          exact hne rfl
        refine ⟨hnode, hother, hdifferent, ?_⟩
        rcases Nat.lt_or_gt_of_ne hdifferent with hless | hless
        · exact .inl ⟨hless, hother, hne.symm⟩
        · exact .inr ⟨hless, hnode, hne⟩
      · rintro ⟨-, hother, -, ⟨-, -, hne⟩ | ⟨-, -, hne⟩⟩
        · exact ⟨hother, hne.symm⟩
        · exact ⟨hother, hne⟩
    · simp [multipartite, hnode]

/-- Assembling a graph of groups goes through, and the graph has the same clique. -/
theorem exists_assemble (hlength : costs.length = groups.length) :
    ∃ graph, assemble costs groups = .ok graph ∧ graph.solve = (multipartite costs groups).solve ∧
      graph.Grown graph.clique := by
  have hdepicts := depicts_afterAll groups.length (assembly costs groups)
  have htidied := (depicts_multipartite hlength).tidied_eq hdepicts
  refine ⟨afterAll (assembly costs groups) (isolated groups.length),
    foldlM_perform fun _ ↦ inside_of_mem_assembly, ?_, grown_clique _ fun node ↦ ?_⟩
  · rw [Graph.solve, Graph.solve, clique_eq_of_tidied_eq htidied, htidied]
  · rw [hdepicts.mem_noted_iff]
    exact fun hedge ↦ not_isDiag_of_mem_edges hedge rfl

end SetCover.Graph

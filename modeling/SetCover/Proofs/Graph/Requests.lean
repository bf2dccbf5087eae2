import Mathlib.Data.Finset.Option
import Mathlib.Data.Sym.Sym2
import SetCover.Graph.Clique

/-!
# Graphs by what was asked of them

A graph without edges and costs is changed by requests.  Costs are set, edges are connected and cliques
are grown, in any order, and what is refused changes nothing.  In the end a node costs what it was given
last, and its neighbours are the nodes that some request connected with it.  The direction in which an
edge was connected is not seen, nor how often and when that was, nor whether a clique was grown before.
-/

namespace SetCover.Graph

variable {κ : Type} {size node other left right : Nat}

/-! ## Requests -/

/-- What can be asked of a graph. -/
inductive Request (κ : Type) where
  | setCost (node : Nat) (cost : κ)
  | connect (left right : Nat)
  | solve

namespace Request

/-- The edge that a graph of the given size gets by a request, if it gets one. -/
def edge? (size : Nat) : Request κ → Option (Sym2 Nat)
  | connect left right =>
    if left < size ∧ right < size ∧ left ≠ right then some s(left, right) else none
  | _ => none

/-- The cost that a node gets by a request, if it gets one. -/
def cost? (node : Nat) : Request κ → Option κ
  | setCost other cost => if other = node then some cost else none
  | _ => none

/-- The graph after a request, carried out or refused. -/
def after [Cost κ] (request : Request κ) (graph : Graph κ) : Graph κ :=
  match request with
  | .setCost node cost => (graph.setCost node cost).toOption.getD graph
  | .connect left right => (graph.connect left right).toOption.getD graph
  | .solve => graph.solve.2

end Request

/-- The graph after several requests, each carried out or refused. -/
def afterAll [Cost κ] (requests : List (Request κ)) (graph : Graph κ) : Graph κ :=
  requests.foldl (fun graph request ↦ request.after graph) graph

/-- The edges that requests connect in a graph of the given size. -/
def edges (size : Nat) (requests : List (Request κ)) : Finset (Sym2 Nat) :=
  (requests.filterMap (Request.edge? size)).toFinset

/-- The cost that requests give to a node last. -/
def lastCost [Cost κ] (requests : List (Request κ)) (node : Nat) : κ :=
  (requests.filterMap (Request.cost? node)).getLastD Cost.zero

theorem edges_concat {requests : List (Request κ)} {request : Request κ} :
    edges size (requests ++ [request]) =
      edges size requests ∪ (request.edge? size).toFinset := by
  rw [edges, edges, List.filterMap_append, List.toFinset_append]
  cases hedge : request.edge? size <;> simp [hedge]

theorem lastCost_concat [Cost κ] {requests : List (Request κ)} {request : Request κ} :
    lastCost (requests ++ [request]) node = (request.cost? node).getD (lastCost requests node) := by
  rw [lastCost, lastCost, List.filterMap_append]
  cases hcost : request.cost? node <;> simp [hcost]

theorem not_isDiag_of_mem_edges {requests : List (Request κ)} {edge : Sym2 Nat}
    (hedge : edge ∈ edges size requests) : ¬edge.IsDiag := by
  rw [edges, List.mem_toFinset, List.mem_filterMap] at hedge
  obtain ⟨request, -, hrequest⟩ := hedge
  cases request with
  | connect left right =>
    obtain ⟨⟨-, -, hne⟩, hsame⟩ := Option.ite_none_right_eq_some.mp hrequest
    obtain rfl := Option.some.inj hsame
    exact hne
  | setCost => cases hrequest
  | solve => cases hrequest

/-! ## What a graph shows -/

/-- The graph has the given number of nodes, costs of the nodes and edges. -/
structure Depicts [Cost κ] (graph : Graph κ) (size : Nat) (costOf : Nat → κ)
    (edges : Finset (Sym2 Nat)) : Prop where
  size_eq : graph.size = size
  size_noted : graph.noted.size = size
  costOf_eq : ∀ node < size, graph.costOf node = costOf node
  mem_noted_iff : ∀ node other, other ∈ graph.noted.getD node [] ↔ s(node, other) ∈ edges

variable [Cost κ] {graph : Graph κ} {costOf : Nat → κ} {edges : Finset (Sym2 Nat)}

omit [Cost κ] in
theorem mem_noted_note {first second : Nat} (hnode : node < graph.noted.size) :
    second ∈ (graph.note node other).noted.getD first [] ↔
      second ∈ graph.noted.getD first [] ∨ first = node ∧ second = other := by
  by_cases heq : first = node
  · subst heq
    simp [note, Array.getElem_modify, hnode, or_comm]
  · simp [note, Array.getElem?_modify, heq, Ne.symm heq]

theorem depicts_isolated (size : Nat) : (isolated size).Depicts size (fun _ ↦ (Cost.zero : κ)) ∅ where
  size_eq := by simp [isolated, Graph.size]
  size_noted := by simp [isolated]
  costOf_eq node hnode := by simp [isolated, Graph.costOf, hnode]
  mem_noted_iff node other := by
    by_cases hnode : node < size <;> simp [isolated, hnode]

namespace Depicts

theorem setCost (h : graph.Depicts size costOf edges) (node : Nat) (cost : κ) :
    ((Request.setCost node cost).after graph).Depicts size
      (fun other ↦ ((Request.setCost node cost).cost? other).getD (costOf other)) edges := by
  rw [Request.after, Graph.setCost, h.size_eq]
  split
  · rename_i hnode
    refine ⟨?_, h.size_noted, fun other hother ↦ ?_, h.mem_noted_iff⟩
    · have hsize := h.size_eq
      simpa [Except.toOption, Graph.size] using hsize
    · have hbound : node < graph.costs.size := hnode.trans_eq h.size_eq.symm
      by_cases heq : node = other
      · subst heq
        simp [Except.toOption, Request.cost?, Graph.costOf, hbound]
      · simpa [Except.toOption, Request.cost?, Graph.costOf, heq] using h.costOf_eq other hother
  · rename_i hnode
    refine ⟨h.size_eq, h.size_noted, fun other hother ↦ ?_, h.mem_noted_iff⟩
    have hne : node ≠ other := fun heq ↦ hnode (heq ▸ hother)
    simpa [Except.toOption, Request.cost?, hne] using h.costOf_eq other hother

theorem connect (h : graph.Depicts size costOf edges) (left right : Nat) :
    ((Request.connect left right).after graph).Depicts size costOf
      (edges ∪ ((Request.connect left right : Request κ).edge? size).toFinset) := by
  have hunchanged (hnone : (Request.connect left right : Request κ).edge? size = none) :
      graph.Depicts size costOf
        (edges ∪ ((Request.connect left right : Request κ).edge? size).toFinset) := by
    rw [hnone]
    simpa using h
  rw [Request.after, Graph.connect, h.size_eq]
  split
  · rename_i hinside
    split
    · rename_i heq
      exact hunchanged (by simp [Request.edge?, heq])
    · rename_i hne
      have hleft : left < graph.noted.size := hinside.1.trans_eq h.size_noted.symm
      have hright : right < (graph.note left right).noted.size := by
        simpa [note, h.size_noted] using hinside.2
      refine ⟨h.size_eq, ?_, h.costOf_eq, fun node other ↦ ?_⟩
      · simpa [Except.toOption, note] using h.size_noted
      · have hedge : (Request.connect left right : Request κ).edge? size = some s(left, right) :=
          if_pos ⟨hinside.1, hinside.2, hne⟩
        change other ∈ ((graph.note left right).note right left).noted.getD node [] ↔ _
        rw [mem_noted_note hright, mem_noted_note hleft, h.mem_noted_iff, or_assoc, ← Sym2.eq_iff,
          hedge, Finset.mem_union, Option.mem_toFinset, Option.mem_some_iff, eq_comm]
  · rename_i houtside
    exact hunchanged (by simp only [Request.edge?]; rw [if_neg]; tauto)

theorem solve (h : graph.Depicts size costOf edges) :
    (Request.solve.after graph).Depicts size costOf edges where
  size_eq := h.size_eq
  size_noted := by
    simpa [Request.after, Graph.solve, tidied, adjacency] using h.size_noted
  costOf_eq := h.costOf_eq
  mem_noted_iff node other := by
    rw [← h.mem_noted_iff]
    change other ∈ graph.adjacency.getD node [] ↔ _
    by_cases hnode : node < graph.noted.size
    · simp [adjacency, hnode, Ascending.mem_ofList]
    · simp [adjacency, hnode]

/-- What one request changes. -/
theorem after (h : graph.Depicts size costOf edges) (request : Request κ) :
    (request.after graph).Depicts size (fun node ↦ (request.cost? node).getD (costOf node))
      (edges ∪ (request.edge? size).toFinset) := by
  cases request with
  | setCost node cost =>
    simpa [Request.edge?] using h.setCost node cost
  | connect left right => exact h.connect left right
  | solve =>
    simpa [Request.edge?, Request.cost?] using h.solve

end Depicts

/-- What requests have made of a graph. -/
theorem depicts_afterAll (size : Nat) (requests : List (Request κ)) :
    (afterAll requests (isolated size)).Depicts size (lastCost requests)
      (Graph.edges size requests) := by
  induction requests using List.reverseRecOn with
  | nil => exact depicts_isolated size
  | append_singleton requests request ih =>
    have hlast : lastCost (requests ++ [request]) =
        fun node ↦ (request.cost? node).getD (lastCost requests node) :=
      funext fun _ ↦ lastCost_concat
    have hstep := ih.after request
    rw [afterAll, List.foldl_append, edges_concat, hlast]
    exact hstep

end SetCover.Graph

import SetCover.Proofs.Search.Components
import SetCover.Proofs.Search.FixedPoint
import SetCover.Proofs.Search.Inheritance

/-!
# The tree of a search

The nodes of a search form a tree whose ends are the leaves and the nodes that are cut off.  A node
between them branches twice, or only once if some row has no column but the one that is branched on.
So there are as many nodes that branch twice as there are ends, less one, and the numbers that are
counted say how many nodes branch once.

What a search counts belongs to the tree that it explores: nothing is taken back when a table is
restored, and the rules of the reductions leave the numbers of the search alone.  A branch takes a
column away for good, so no path is longer than the columns are many.  If single columns are chosen, a
reduced table has no row with a single column, and every branch is followed by a second one.
-/

namespace SetCover

/-- How the nodes of a search hang together. -/
inductive SearchTree where
  | leaf
  | cut
  | once (chosen : SearchTree)
  | twice (chosen deleted : SearchTree)
  deriving DecidableEq

namespace SearchTree

def nodes : SearchTree → Nat
  | leaf => 1
  | cut => 1
  | once chosen => chosen.nodes + 1
  | twice chosen deleted => chosen.nodes + deleted.nodes + 1

def leaves : SearchTree → Nat
  | leaf => 1
  | cut => 0
  | once chosen => chosen.leaves
  | twice chosen deleted => chosen.leaves + deleted.leaves

/-- The nodes that are cut off. -/
def cuts : SearchTree → Nat
  | leaf => 0
  | cut => 1
  | once chosen => chosen.cuts
  | twice chosen deleted => chosen.cuts + deleted.cuts

/-- The nodes that have one child. -/
def singles : SearchTree → Nat
  | leaf => 0
  | cut => 0
  | once chosen => chosen.singles + 1
  | twice chosen deleted => chosen.singles + deleted.singles

/-- The branches on a longest path. -/
def height : SearchTree → Nat
  | leaf => 0
  | cut => 0
  | once chosen => chosen.height + 1
  | twice chosen deleted => max chosen.height deleted.height + 1

/-- The ends of a tree, apart from one, are as many as its nodes with two children. -/
theorem nodes_succ (tree : SearchTree) :
    tree.nodes + 1 = 2 * (tree.leaves + tree.cuts) + tree.singles := by
  induction tree with
  | leaf => rfl
  | cut => rfl
  | once chosen ih =>
    rw [nodes, leaves, cuts, singles]
    omega
  | twice chosen deleted ihchosen ihdeleted =>
    rw [nodes, leaves, cuts, singles]
    omega

/-! ## Numbers that belong to a tree -/

variable {chosen deleted : SearchTree} {depth : Nat} {change further last : Stats → Stats}

/-- The numbers of a search are changed as befits the tree, whose root is at the given depth. -/
structure Counts (tree : SearchTree) (depth : Nat) (change : Stats → Stats) : Prop where
  nodes : ∀ stats, (change stats).nodes = stats.nodes + tree.nodes
  leaves : ∀ stats, (change stats).leaves = stats.leaves + tree.leaves
  pruned : ∀ stats, (change stats).pruned = stats.pruned + tree.cuts
  maxDepth : ∀ stats, (change stats).maxDepth = max stats.maxDepth (depth + tree.height)

/-- The numbers are changed as befits a node of which nothing but the depth is known. -/
structure Opens (depth : Nat) (change : Stats → Stats) : Prop where
  nodes : ∀ stats, (change stats).nodes = stats.nodes + 1
  leaves : ∀ stats, (change stats).leaves = stats.leaves
  pruned : ∀ stats, (change stats).pruned = stats.pruned
  maxDepth : ∀ stats, (change stats).maxDepth = max stats.maxDepth depth

theorem Opens.leaf (h : Opens depth change) :
    Counts .leaf depth ((fun stats ↦ { stats with leaves := stats.leaves + 1 }) ∘ change) where
  nodes := h.nodes
  leaves stats := congrArg (· + 1) (h.leaves stats)
  pruned := h.pruned
  maxDepth := h.maxDepth

theorem Opens.cut (h : Opens depth change) :
    Counts .cut depth ((fun stats ↦ { stats with pruned := stats.pruned + 1 }) ∘ change) where
  nodes := h.nodes
  leaves := h.leaves
  pruned stats := congrArg (· + 1) (h.pruned stats)
  maxDepth := h.maxDepth

theorem Opens.once (h : Opens depth change) (hchosen : Counts chosen (depth + 1) further) :
    Counts (.once chosen) depth (further ∘ change) where
  nodes stats := by
    rw [Function.comp, hchosen.nodes, h.nodes, SearchTree.nodes]
    omega
  leaves stats := by rw [Function.comp, hchosen.leaves, h.leaves, SearchTree.leaves]
  pruned stats := by rw [Function.comp, hchosen.pruned, h.pruned, SearchTree.cuts]
  maxDepth stats := by
    rw [Function.comp, hchosen.maxDepth, h.maxDepth, SearchTree.height]
    omega

theorem Opens.twice (h : Opens depth change) (hchosen : Counts chosen (depth + 1) further)
    (hdeleted : Counts deleted (depth + 1) last) :
    Counts (.twice chosen deleted) depth (last ∘ further ∘ change) where
  nodes stats := by
    rw [Function.comp, hdeleted.nodes, (h.once hchosen).nodes, SearchTree.nodes, SearchTree.nodes]
    omega
  leaves stats := by
    rw [Function.comp, hdeleted.leaves, (h.once hchosen).leaves, SearchTree.leaves, SearchTree.leaves,
      Nat.add_assoc]
  pruned stats := by
    rw [Function.comp, hdeleted.pruned, (h.once hchosen).pruned, SearchTree.cuts, SearchTree.cuts,
      Nat.add_assoc]
  maxDepth stats := by
    rw [Function.comp, hdeleted.maxDepth, (h.once hchosen).maxDepth, SearchTree.height,
      SearchTree.height]
    omega

end SearchTree

namespace Workbench

open SetCover.Matrix SearchTree

variable {κ α : Type} {matrix next taken left : Matrix κ} {work : Work κ α} {result : α}
  {change : Stats → Stats} {depth column : Nat}

/-! ## Rules do not count for the search -/

/-- However the call ends, the numbers of the search are as they were. -/
def KeepsTally (work : Work κ α) : Prop :=
  ∀ bench, Calls.Ends work bench (fun _ next ↦ next.stats.SameTally bench.stats)
    fun _ next ↦ next.stats.SameTally bench.stats

theorem KeepsTally.inherited : Inherited (@KeepsTally κ) where
  pure _ _ := Calls.Ends.pure ⟨rfl, rfl, rfl, rfl⟩
  throw _ _ := Calls.Ends.throw ⟨rfl, rfl, rfl, rfl⟩
  bind hwork hrest bench := by
    refine Calls.Ends.bind ((hwork bench).mono fun result next hnext ↦ ?_)
    have htrans {later : Workbench κ} (hlater : later.stats.SameTally next.stats) :
        later.stats.SameTally bench.stats :=
      ⟨hlater.nodes.trans hnext.nodes, hlater.leaves.trans hnext.leaves,
        hlater.pruned.trans hnext.pruned, hlater.maxDepth.trans hnext.maxDepth⟩
    exact (hrest result next).imp (fun _ _ ↦ htrans) fun _ _ ↦ htrans
  table _ hrest bench := hrest bench.matrix bench
  edit change _ bench := by
    simp only [Calls.Ends, edit]
    cases change bench.matrix <;> exact ⟨rfl, rfl, rfl, rfl⟩
  report events _ bench := by
    refine Calls.Ends.of_ok rfl ?_
    dsimp only
    split <;> exact ⟨rfl, rfl, rfl, rfl⟩
  count _ hchange bench := Calls.Ends.of_ok rfl (hchange bench.stats)

theorem Reaches.sameTally (h : Reaches work matrix change result next) (hkeeps : KeepsTally work)
    (stats : Stats) : (change stats).SameTally stats := by
  obtain ⟨later, hwork⟩ := h stats (Journal.empty false)
  have hends := hkeeps ⟨matrix, stats, Journal.empty false⟩
  rw [Calls.Ends, hwork] at hends
  exact hends

/-- A visit and the reduction after it. -/
theorem opens_visit (hkeeps : ∀ stats, (change stats).SameTally stats) :
    Opens depth (change ∘ fun stats ↦
      { stats with nodes := stats.nodes + 1, maxDepth := Nat.max stats.maxDepth depth }) where
  nodes _ := (hkeeps _).nodes
  leaves _ := (hkeeps _).leaves
  pruned _ := (hkeeps _).pruned
  maxDepth _ := (hkeeps _).maxDepth

/-- A call leads to one table. -/
theorem Reaches.next_eq {further : Stats → Stats} {other : α} {last : Matrix κ}
    (h : Reaches work matrix change result next) (hother : Reaches work matrix further other last) :
    next = last := by
  obtain ⟨later, hwork⟩ := h Stats.zero (Journal.empty false)
  obtain ⟨latest, hlast⟩ := hother Stats.zero (Journal.empty false)
  exact congrArg Workbench.matrix (Calls.next_eq hwork hlast)

/-! ## Trees that are explored -/

variable [Cost κ] {config : Config} {reduction : Reduction} {tree : SearchTree}

/-- The trees that a search may explore below a table.  Every node reduces its table, and it branches
on the first column of the reduced one.  Costs are left open, so with bounds any node with rows may be
cut off. -/
inductive Unfolds (config : Config) : Matrix κ → SearchTree → Prop
  | leaf {matrix next : Matrix κ} {change : Stats → Stats} {reduction : Reduction} :
      Reaches (reduce config) matrix.backup change reduction next → next.isEmpty = true →
      Unfolds config matrix .leaf
  | cut {matrix next : Matrix κ} {change : Stats → Stats} {reduction : Reduction} :
      Reaches (reduce config) matrix.backup change reduction next → ¬next.isEmpty = true →
      config.lowerBound = true → Unfolds config matrix .cut
  /-- Some row has no column but the first one. -/
  | once {matrix next taken : Matrix κ} {change : Stats → Stats} {reduction : Reduction}
      {column : Nat} {chosen : SearchTree} :
      Reaches (reduce config) matrix.backup change reduction next →
      next.columns.first? = some column → next.forces column = true →
      Matrix.select column next.backup = .ok () taken → Unfolds config taken chosen →
      Unfolds config matrix (.once chosen)
  /-- The first column is chosen, and then it is deleted. -/
  | twice {matrix next taken left : Matrix κ} {change : Stats → Stats} {reduction : Reduction}
      {column : Nat} {chosen deleted : SearchTree} :
      Reaches (reduce config) matrix.backup change reduction next →
      next.columns.first? = some column → ¬next.forces column = true →
      Matrix.select column next.backup = .ok () taken → Unfolds config taken chosen →
      Matrix.delete (.column column) next.backup = .ok () left → Unfolds config left deleted →
      Unfolds config matrix (.twice chosen deleted)

/-- Without bounds nothing is cut off. -/
theorem Unfolds.cuts_eq_zero (h : Unfolds config matrix tree) (hoff : config.lowerBound = false) :
    tree.cuts = 0 := by
  induction h with
  | leaf => rfl
  | cut _ _ hon => cases hoff.symm.trans hon
  | once _ _ _ _ _ ih => exact ih
  | twice _ _ _ _ _ _ _ ihchosen ihdeleted => rw [SearchTree.cuts, ihchosen, ihdeleted]

/-- What a node comes to before it branches. -/
structure Branches (config : Config) (matrix next : Matrix κ) : Prop where
  linked : next.Linked
  settled : next.Settled
  irreducible : next.Irreducible config
  removes : Removes matrix.backup next

variable [LawfulCost κ]

theorem exists_reaches_reduce (h : matrix.Linked) (hsettled : matrix.Settled) (config : Config) :
    ∃ change reduction next, Reaches (reduce config) matrix.backup change reduction next ∧
      Branches config matrix next := by
  obtain ⟨change, reduction, next, hrun, hirreducible, hshrinks, -⟩ :=
    exists_reaches_reduceWithin h.backup hsettled config (Nat.lt_succ_self matrix.backup.extent)
  have hdeletes := hshrinks.reduces.deletes h.backup hsettled
  exact ⟨change, reduction, next, Reaches.table hrun, hdeletes.linked h.backup hsettled,
    hdeletes.settled h.backup hsettled, hirreducible, (hdeletes.removes h.backup hsettled).1⟩

theorem Reaches.branches (h : Reaches (reduce config) matrix.backup change reduction next)
    (hmatrix : matrix.Linked) (hsettled : matrix.Settled) : Branches config matrix next := by
  obtain ⟨further, other, last, hlast, hbranches⟩ := exists_reaches_reduce hmatrix hsettled config
  rwa [h.next_eq hlast]

namespace Branches

omit [LawfulCost κ]

/-- A branch takes a column away. -/
theorem descend {later : Matrix κ} (h : Branches config matrix next) (hmatrix : matrix.Linked)
    (hdeletes : Deletes next.backup later) (hactive : next.isActive (.column column) = true)
    (hgone : later.isActive (.column column) = false) :
    later.Linked ∧ later.Settled ∧
      later.activeColumns.length < matrix.activeColumns.length := by
  have hremoves := (hdeletes.removes h.linked.backup h.settled).1
  refine ⟨hdeletes.linked h.linked.backup h.settled, hdeletes.settled h.linked.backup h.settled, ?_⟩
  calc
    later.activeColumns.length < next.activeColumns.length :=
      hremoves.length_active_lt h.linked.backup hactive hgone
    _ ≤ matrix.activeColumns.length := h.removes.length_active_le hmatrix.backup .column

theorem select_eq (h : Branches config matrix next) (hfirst : next.columns.first? = some column) :
    Matrix.select column next.backup = .ok () (next.backup.selected column) :=
  select_of_isActive h.linked.backup h.settled (h.linked.isActive_of_first? hfirst)

theorem delete_eq (h : Branches config matrix next) (hfirst : next.columns.first? = some column) :
    Matrix.delete (.column column) next.backup = .ok () (next.backup.deleted (.column column)) :=
  delete_of_isActive h.linked.backup (h.linked.isActive_of_first? hfirst)

theorem chosen (h : Branches config matrix next) (hmatrix : matrix.Linked)
    (hfirst : next.columns.first? = some column)
    (hselect : Matrix.select column next.backup = .ok () taken) :
    taken.Linked ∧ taken.Settled ∧ taken.activeColumns.length < matrix.activeColumns.length := by
  have hactive := h.linked.isActive_of_first? hfirst
  obtain rfl := Calls.next_eq (h.select_eq hfirst) hselect
  exact h.descend hmatrix (allDeleted_selected h.linked.backup h.settled hactive).2.deletes hactive
    (isActive_column_selected h.linked.backup h.settled hactive)

theorem deleted (h : Branches config matrix next) (hmatrix : matrix.Linked)
    (hfirst : next.columns.first? = some column)
    (hdelete : Matrix.delete (.column column) next.backup = .ok () left) :
    left.Linked ∧ left.Settled ∧ left.activeColumns.length < matrix.activeColumns.length := by
  have hactive := h.linked.isActive_of_first? hfirst
  obtain rfl := Calls.next_eq (h.delete_eq hfirst) hdelete
  exact h.descend hmatrix (.delete .refl hactive) hactive
    (isActive_deleted_self h.linked.backup h.settled hactive)

/-- If single columns are chosen, no row is left that could force one. -/
theorem not_forces (h : Branches config matrix next) (hon : config.essentialColumns = true)
    (hfirst : next.columns.first? = some column) : ¬next.forces column = true := by
  intro hforces
  have hactive := h.linked.isActive_of_first? hfirst
  obtain ⟨row, hrow, hcount⟩ := List.any_eq_true.mp hforces
  have hrowActive := ((h.linked.mem_rowsOf_iff hactive).mp hrow).2
  have hlength := h.linked.length_crossing (h.linked.inRange_of_isActive hrowActive)
  exact h.irreducible.singles hon row hrowActive (hlength.trans (of_decide_eq_true hcount))

end Branches

/-- No path of the tree is longer than the columns are many. -/
theorem Unfolds.height_le (h : Unfolds config matrix tree) (hmatrix : matrix.Linked)
    (hsettled : matrix.Settled) : tree.height ≤ matrix.activeColumns.length := by
  induction h with
  | leaf => exact Nat.zero_le _
  | cut => exact Nat.zero_le _
  | once hreduce hfirst _ hselect _ ih =>
    obtain ⟨hlinked, hsettled, hfewer⟩ :=
      (hreduce.branches hmatrix hsettled).chosen hmatrix hfirst hselect
    exact (ih hlinked hsettled).trans_lt hfewer
  | twice hreduce hfirst _ hselect _ hdelete _ ihchosen ihdeleted =>
    have hbranches := hreduce.branches hmatrix hsettled
    obtain ⟨htaken, htakenSettled, hfewer⟩ := hbranches.chosen hmatrix hfirst hselect
    obtain ⟨hleft, hleftSettled, hless⟩ := hbranches.deleted hmatrix hfirst hdelete
    exact max_lt ((ihchosen htaken htakenSettled).trans_lt hfewer)
      ((ihdeleted hleft hleftSettled).trans_lt hless)

/-- If single columns are chosen, every branch has its counterpart. -/
theorem Unfolds.singles_eq_zero (h : Unfolds config matrix tree) (hmatrix : matrix.Linked)
    (hsettled : matrix.Settled) (hon : config.essentialColumns = true) : tree.singles = 0 := by
  induction h with
  | leaf => rfl
  | cut => rfl
  | once hreduce hfirst hforces _ _ _ =>
    exact absurd hforces ((hreduce.branches hmatrix hsettled).not_forces hon hfirst)
  | twice hreduce hfirst _ hselect _ hdelete _ ihchosen ihdeleted =>
    have hbranches := hreduce.branches hmatrix hsettled
    obtain ⟨htaken, htakenSettled, -⟩ := hbranches.chosen hmatrix hfirst hselect
    obtain ⟨hleft, hleftSettled, -⟩ := hbranches.deleted hmatrix hfirst hdelete
    rw [SearchTree.singles, ihchosen htaken htakenSettled, ihdeleted hleft hleftSettled]

end Workbench

end SetCover

import Mathlib.Data.DFinsupp.WellFounded
import SetCover.Proofs.Search.Completion
import SetCover.Proofs.Search.Optimality

/-!
# Searching under an incumbent

An incumbent need not be the cost of a cover, and nothing is assumed of its components.  It only has to
be compared with costs that stand for amounts, and since amounts are well ordered there is a least one
that is no improvement on it.  A search finds nothing if and only if every cover of what is left leads
to this amount or beyond, and whatever it finds, it hands the table back as it got it.
-/

namespace SetCover

variable {κ : Type} [Cost κ] [LawfulCost κ]

/-- Every incumbent has a limit: the least amount that is no improvement on it, if there is one. -/
theorem exists_isLimit (best : Option κ) : ∃ limit, IsLimit best limit := by
  cases best with
  | none => exact ⟨⊤, rfl⟩
  | some best =>
    let worse : Set (Lex (Amount κ)) :=
      {amount | ∃ cost : κ, Stands cost (ofLex amount) ∧ best ≤ cost}
    rcases worse.eq_empty_or_nonempty with hempty | hworse
    · refine ⟨⊤, fun {cost amount} hstands ↦ iff_of_true ?_ (WithTop.coe_lt_top _)⟩
      by_contra hnot
      have hmem : toLex amount ∈ worse := ⟨cost, hstands, Std.not_lt.mp hnot⟩
      rwa [hempty] at hmem
    · obtain ⟨least, ⟨other, hother, hreached⟩, hleast⟩ := wellFounded_lt.has_min worse hworse
      refine ⟨WithTop.some least, fun {cost amount} hstands ↦ ?_⟩
      rw [WithTop.coe_lt_coe]
      constructor
      · intro hless
        by_contra hnot
        have hle : other ≤ cost := (hother.le_iff hstands).mpr (not_lt.mp hnot)
        exact Std.not_lt.mpr (Std.TransCmp.isLE_trans hreached hle) hless
      · intro hless
        by_contra hnot
        exact hleast (toLex amount) ⟨cost, hstands, Std.not_lt.mp hnot⟩ hless

namespace Matrix

variable {matrix : Matrix κ} {amountOf : Nat → Amount κ} {base : κ} {spent : Amount κ}

theorem Node.stands_totalCost (h : matrix.Node amountOf base spent) {columns : List Nat}
    (hnodup : columns.Nodup) (hcovers : matrix.Covers columns.toFinset) :
    Stands (base + matrix.totalCost columns) (spent + Amount.total amountOf columns.toFinset) := by
  have hsubset : columns.toFinset ⊆ matrix.columnSet := fun column hcolumn ↦
    h.linked.mem_columnSet.mpr (hcovers.active column hcolumn)
  apply h.spent.add (h.priced.stands_totalCost h.linked hnodup hcovers)
  exact h.fits.of_le fun index ↦
    Nat.add_le_add_left (Amount.total_le_of_subset hsubset index) (spent index)

end Matrix

namespace Workbench

open SetCover.Matrix

variable {matrix : Matrix κ} {amountOf : Nat → Amount κ} {base : κ} {spent : Amount κ}

/-- If the costs are whole and add up exactly on top of what was spent, a search is carried out and hands
the table back as it was.  It finds nothing if and only if there is an incumbent and no cover of the
active rows improves on it; what it finds is a cheapest cover. -/
theorem search_eq_none_iff (h : matrix.Reachable)
    (hcosts : ∀ column, matrix.isActive (.column column) = true →
      Stands (matrix.costOf column) (amountOf column))
    (hbase : Stands base spent)
    (hfits : Amount.Fits (spent + Amount.total amountOf matrix.columnSet))
    (config : Config) (best : Option κ) (depth : Nat) (stats : Stats) (journal : Journal κ) :
    ∃ found bench, search config base best depth ⟨matrix, stats, journal⟩ = .ok found bench ∧
      bench.matrix = matrix ∧
      (found = none ↔ ∃ bound, best = some bound ∧ ∀ columns : List Nat, columns.Nodup →
        matrix.Covers columns.toFinset → bound ≤ base + matrix.totalCost columns) ∧
      ∀ cover, found = some cover → cover.columns.Nodup ∧ matrix.Covers cover.columns.toFinset ∧
        cover.cost = base + matrix.totalCost cover.columns ∧
        ∀ columns : List Nat, columns.Nodup → matrix.Covers columns.toFinset →
          cover.cost ≤ base + matrix.totalCost columns := by
  have hnode : matrix.Node amountOf base spent :=
    ⟨h.intact.linked, h.intact.settled, hcosts, hbase, hfits⟩
  obtain ⟨limit, hlimit⟩ := exists_isLimit best
  have hsearch := (completes_search config hnode.linked hnode.settled base best depth).and
    (yields_search (hnode.compared config) hlimit depth)
  obtain ⟨found, bench, hrun, hsame, hsome, hfinds⟩ :=
    (@Completes.ends _ _ _ _ _ (fun _ _ ↦ False) hsearch stats journal).exists_ok
  have hreaches {bound : κ} (hbest : best = some bound) {columns : List Nat} (hnodup : columns.Nodup)
      (hcovers : matrix.Covers columns.toFinset) : bound ≤ base + matrix.totalCost columns ↔
        limit ≤ price amountOf spent columns.toFinset := by
    rw [← Std.not_lt, ← not_lt]
    rw [hbest] at hlimit
    exact not_congr (hlimit (hnode.stands_totalCost hnodup hcovers))
  refine ⟨found, bench, hrun, hsame, ⟨?_, ?_⟩, ?_⟩
  · rintro rfl
    obtain ⟨bound, hbest⟩ := Option.ne_none_iff_exists'.mp fun hnone ↦ nomatch hsome hnone
    exact ⟨bound, hbest, fun columns hnodup hcovers ↦
      (hreaches hbest hnodup hcovers).mpr (hfinds columns.toFinset hcovers)⟩
  · rintro ⟨bound, hbest, hworse⟩
    cases found with
    | none => rfl
    | some cover =>
      obtain ⟨hcheapest, hbelow⟩ := hfinds
      have hno := hworse cover.columns hcheapest.nodup hcheapest.isEligible
      have hle := (hreaches hbest hcheapest.nodup hcheapest.isEligible).mp hno
      exact absurd hbelow hle.not_gt
  · rintro cover rfl
    obtain ⟨hcheapest, -⟩ := hfinds
    have hcost := hcheapest.stands.unique (hnode.stands_totalCost hcheapest.nodup hcheapest.isEligible)
    refine ⟨hcheapest.nodup, hcheapest.isEligible, hcost, fun columns hnodup hcovers ↦ ?_⟩
    have hle := hcheapest.least columns.toFinset hcovers
    exact (hcheapest.stands.le_iff (hnode.stands_totalCost hnodup hcovers)).mpr (WithTop.coe_le_coe.mp hle)

/-- A cycle of three rows costs two, on top of one that was spent.  This does not improve on an incumbent
of three, but on one of three and a half. -/
theorem search_eq_none_iff_cycle :
    let bench := Operation.afterAll [.insert 0 0, .insert 0 1, .insert 1 1, .insert 1 2, .insert 2 0,
      .insert 2 2, .insert 3 0, .setCost 2 0 4.0, .backup, .delete (.row 3)]
      (Workbench.blank SingleCost 4 3 false)
    Calls.answer (search .exhaustive ⟨1.0⟩ (some ⟨3.0⟩) 0) bench = .ok none ∧
      (∀ columns : List Nat, columns.Nodup → bench.matrix.Covers columns.toFinset →
        (⟨3.0⟩ : SingleCost) ≤ ⟨1.0⟩ + bench.matrix.totalCost columns) ∧
      Calls.answer (search .exhaustive ⟨1.0⟩ (some ⟨3.5⟩) 0) bench = .ok (some ⟨⟨3.0⟩, [0, 1]⟩) ∧
      ¬∀ columns : List Nat, columns.Nodup → bench.matrix.Covers columns.toFinset →
        (⟨3.5⟩ : SingleCost) ≤ ⟨1.0⟩ + bench.matrix.totalCost columns := by
  intro bench
  have hreachable : bench.matrix.Reachable := reachable_afterAll_blank 4 3 false _
  obtain ⟨hactive, hcosts, hnone, hsome⟩ : bench.matrix.activeColumns = [0, 1, 2] ∧
      (∀ column ∈ [0, 1, 2], Cost.components (bench.matrix.costOf column) =
        [Float.ofNat ([1, 1, 4].getD column 0)]) ∧
      Calls.answer (search .exhaustive ⟨1.0⟩ (some ⟨3.0⟩) 0) bench = .ok none ∧
      Calls.answer (search .exhaustive ⟨1.0⟩ (some ⟨3.5⟩) 0) bench =
        .ok (some ⟨⟨3.0⟩, [0, 1]⟩) := by
    decide +kernel
  clear_value bench
  have hpriced : bench.matrix.Priced fun column _ ↦ [1, 1, 4].getD column 0 := by
    refine hreachable.intact.linked.priced_of_activeColumns hactive
      (fun column hcolumn ↦ hcosts column hcolumn) ?_
    unfold Amount.Fits
    decide +kernel
  have hbase : Stands (⟨1.0⟩ : SingleCost) fun _ ↦ 1 := by
    refine ⟨rfl, ?_⟩
    unfold Amount.Fits
    decide
  have hfits : Amount.Fits ((fun _ ↦ 1 : Amount SingleCost) +
      Amount.total (fun column _ ↦ [1, 1, 4].getD column 0) bench.matrix.columnSet) := by
    rw [columnSet, hactive]
    unfold Amount.Fits
    decide +kernel
  obtain ⟨found, later, hrun, -, hiff, -⟩ := search_eq_none_iff hreachable hpriced.stands hbase hfits
    .exhaustive (some ⟨3.0⟩) 0 bench.stats bench.journal
  obtain ⟨other, last, hother, -, hotherIff, -⟩ := search_eq_none_iff hreachable hpriced.stands hbase
    hfits .exhaustive (some ⟨3.5⟩) 0 bench.stats bench.journal
  obtain rfl : found = none := Except.ok.inj ((Calls.answer_of_ok hrun).symm.trans hnone)
  obtain rfl : other = some ⟨⟨3.0⟩, [0, 1]⟩ :=
    Except.ok.inj ((Calls.answer_of_ok hother).symm.trans hsome)
  obtain ⟨bound, hbound, hworse⟩ := hiff.mp rfl
  obtain rfl := Option.some.inj hbound
  exact ⟨hnone, hworse, hsome, fun hworse ↦ nomatch hotherIff.mpr ⟨_, rfl, hworse⟩⟩

end Workbench

end SetCover

import SetCover.Proofs.Cost.NegativeZero
import SetCover.Proofs.Search.Completion
import SetCover.Proofs.Search.Optimality

/-!
# Costs with negative zeros

A search adds up costs, and what it has spent never has a negative zero.  Only column dominance and the
lower bound compare the costs of columns themselves.  Without these two rules the negative zeros have no
effect on the cost that is found; with them they have none if no component is one but the last.  Beyond
that a column that looks cheap may drive out a cheaper one.
-/

namespace SetCover

variable {κ : Type} [Cost κ]

namespace Matrix

variable {matrix : Matrix κ} {costs : Array κ} {amountOf : Nat → Amount κ} {cover : Cover κ}

omit [Cost κ] in
theorem covers_withCosts {columns : Finset Nat} :
    { matrix with costs := costs }.Covers columns ↔ matrix.Covers columns :=
  ⟨fun h ↦ ⟨h.active, h.covered⟩, fun h ↦ ⟨h.active, h.covered⟩⟩

/-- The costs in the array are those of the table with zero in place of every negative zero; they add
up exactly. -/
structure Unsigned (matrix : Matrix κ) (costs : Array κ) (amountOf : Nat → Amount κ) : Prop where
  unsigns : ∀ column, matrix.isActive (.column column) = true →
    Unsigns (matrix.costOf column) ({ matrix with costs := costs }.costOf column)
  priced : { matrix with costs := costs }.Priced amountOf

/-- In no cost of an active column any component but the last is a negative zero. -/
def LeadsUnsigned (matrix : Matrix κ) : Prop :=
  ∀ column, matrix.isActive (.column column) = true → SetCover.LeadsUnsigned (matrix.costOf column)

variable [LawfulCost κ]

namespace Unsigned

theorem adds (h : matrix.Unsigned costs amountOf) (column : Nat)
    (hactive : matrix.isActive (.column column) = true) :
    Adds (matrix.costOf column) (amountOf column) :=
  (h.unsigns column hactive).adds (h.priced.stands column hactive)

theorem ordered (h : matrix.Unsigned costs amountOf) (hleads : matrix.LeadsUnsigned) :
    matrix.Ordered amountOf := fun column other hcolumn hother hle ↦
  (h.unsigns column hcolumn).toLex_le (h.priced.stands column hcolumn) (hleads column hcolumn)
    (h.unsigns other hother) (h.priced.stands other hother) (hleads other hother) hle

/-- Totals have no negative zeros. -/
theorem totalCost_eq (h : matrix.Unsigned costs amountOf) (hmatrix : matrix.Linked)
    {columns : List Nat} (hnodup : columns.Nodup)
    (hactive : ∀ column ∈ columns, matrix.isActive (.column column) = true) :
    matrix.totalCost columns = { matrix with costs := costs }.totalCost columns := by
  have hsigned := hmatrix.stands_totalCost h.adds h.priced.fits hnodup hactive
  have hplain := (hmatrix.withCosts costs).stands_totalCost
    (fun column hcolumn ↦ (h.priced.stands column hcolumn).adds) h.priced.fits hnodup hactive
  exact hsigned.unique hplain

theorem compared (h : matrix.Unsigned costs amountOf) (hmatrix : matrix.Linked)
    (hsettled : matrix.Settled) {config : Config}
    (hharmless : matrix.LeadsUnsigned ∨
      config.columnDominance = false ∧ config.lowerBound = false) :
    matrix.Compared config amountOf (Cost.zero : κ) 0 := by
  refine ⟨⟨hmatrix, hsettled, h.adds, stands_zero, ?_⟩, fun hconfig ↦ ?_⟩
  · rw [zero_add]
    exact h.priced.fits
  · rcases hharmless with hleads | ⟨hcolumns, hbounds⟩
    · exact h.ordered hleads
    · simp [hcolumns, hbounds] at hconfig

end Unsigned

end Matrix

namespace Workbench

open SetCover.Matrix

variable [LawfulCost κ] {matrix : Matrix κ} {costs : Array κ} {amountOf : Nat → Amount κ}

/-- Unless negative zeros stand before the last component and costs of columns are compared, solving
answers as if they were zeros: with the same row without cells, or with a cover of the same cost, which
is optimal.  The order of costs does not go against that of the costs without negative zeros, nor do
totals tell the two apart. -/
theorem cost_eq_of_unsigned (h : matrix.Reachable) (hunsigned : matrix.Unsigned costs amountOf)
    {config : Config} (hharmless : matrix.LeadsUnsigned ∨
      config.columnDominance = false ∧ config.lowerBound = false)
    (stats : Stats) (journal : Journal κ) :
    let plain := { matrix with costs := costs }
    ((∃ row, Calls.answer (solve config) ⟨matrix, stats, journal⟩ = .ok (.uncoverable row) ∧
        ∀ (other : Config) (counted : Stats) (reported : Journal κ),
          Calls.answer (solve other) ⟨plain, counted, reported⟩ = .ok (.uncoverable row)) ∨
      ∃ cover, Calls.answer (solve config) ⟨matrix, stats, journal⟩ = .ok (.cover cover) ∧
        plain.Optimal cover ∧ ∀ (other : Config) (counted : Stats) (reported : Journal κ),
          ∃ found, Calls.answer (solve other) ⟨plain, counted, reported⟩ = .ok (.cover found) ∧
            found.cost = cover.cost) ∧
      (∀ columns : List Nat, columns.Nodup →
        (∀ column ∈ columns, matrix.isActive (.column column) = true) →
          matrix.totalCost columns = plain.totalCost columns) ∧
      (matrix.LeadsUnsigned → ∀ column other, matrix.isActive (.column column) = true →
        matrix.isActive (.column other) = true → matrix.costOf column ≤ matrix.costOf other →
          plain.costOf column ≤ plain.costOf other) := by
  intro plain
  have hintact := h.intact
  have hplain : plain.Intact := ⟨hintact.stacked.withCosts costs, hintact.settled⟩
  refine ⟨?_, fun columns hnodup hactive ↦ hunsigned.totalCost_eq hintact.linked hnodup hactive,
    fun hleads column other hcolumn hother hle ↦ ?_⟩
  · have hrows : plain.uncoverable? = matrix.uncoverable? := rfl
    cases hcovered : matrix.uncoverable? with
    | some row =>
      exact .inl ⟨row, solve_eq_uncoverable hintact hcovered config stats journal,
        solve_eq_uncoverable hplain (hrows.trans hcovered)⟩
    | none =>
      obtain ⟨cover, hcover⟩ := exists_solve config hintact hcovered stats journal
      have hcompared := hunsigned.compared hintact.linked hintact.settled hharmless
      have hsigned := (yields_solve hcompared).of_answer hcover cover rfl
      have hcheapest : Cheapest amountOf 0 plain.Covers cover :=
        ⟨hsigned.nodup, covers_withCosts.mpr hsigned.isEligible, hsigned.stands,
          fun columns hcolumns ↦ hsigned.least columns (covers_withCosts.mp hcolumns)⟩
      refine .inr ⟨cover, hcover, hunsigned.priced.optimal hplain.linked hcheapest,
        fun other counted reported ↦ ?_⟩
      obtain ⟨found, hfound⟩ :=
        exists_solve other hplain (hrows.trans hcovered) counted reported
      exact ⟨found, hfound,
        hcheapest.cost_eq (cheapest_of_solve hplain hunsigned.priced hfound)⟩
  · have hamount := hunsigned.ordered hleads column other hcolumn hother hle
    exact ((hunsigned.priced.stands column hcolumn).le_iff
      (hunsigned.priced.stands other hother)).mpr hamount

/-- Of a cycle of three rows two columns of cost one are chosen.  One of them has a negative zero in its
second component, and a row is deleted behind a marker. -/
theorem cost_eq_of_unsigned_cycle :
    let bench := Operation.afterAll [.insert 0 0, .insert 0 1, .insert 1 1, .insert 1 2, .insert 2 0,
      .insert 2 2, .insert 3 2, .setCost 0 1 (-0.0), .setCost 2 1 2.0, .backup, .delete (.row 3)]
      (Workbench.blank PairCost 4 3 false)
    bench.matrix.costOf 0 = ⟨1.0, -0.0⟩ ∧
      ∃ cover, Calls.answer (solve .full) bench = .ok (.cover cover) ∧ cover.cost = ⟨2.0, 0.0⟩ := by
  intro bench
  have hreachable : bench.matrix.Reachable := reachable_afterAll_blank 4 3 false _
  let costs : Array PairCost := #[⟨1.0, 0.0⟩, ⟨1.0, 0.0⟩, ⟨1.0, 2.0⟩]
  obtain ⟨hactive, hsigned, hcosts, hunsigns, hleads, hsolve⟩ :
      bench.matrix.activeColumns = [0, 1, 2] ∧ bench.matrix.costOf 0 = ⟨1.0, -0.0⟩ ∧
      (∀ column ∈ [0, 1, 2], Cost.components ({ bench.matrix with costs := costs }.costOf column) =
        [Float.ofNat 1, Float.ofNat (if column = 2 then 2 else 0)]) ∧
      (∀ column ∈ [0, 1, 2], Cost.components ({ bench.matrix with costs := costs }.costOf column) =
        (Cost.components (bench.matrix.costOf column)).map unsignZero) ∧
      (∀ column ∈ [0, 1, 2],
        ∀ value ∈ (Cost.components (bench.matrix.costOf column)).dropLast, value ≠ -0.0) ∧
      Calls.answer (solve .exhaustive)
        ⟨{ bench.matrix with costs := costs }, bench.stats, bench.journal⟩ =
          .ok (.cover ⟨⟨2.0, 0.0⟩, [0, 1]⟩) := by
    decide +kernel
  clear_value bench
  have hlinked := hreachable.intact.linked
  have hlisted : ∀ column, bench.matrix.isActive (.column column) = true → column ∈ [0, 1, 2] :=
    fun column hcolumn ↦ hactive ▸ hlinked.mem_active.mp hcolumn
  have hpriced : { bench.matrix with costs := costs }.Priced fun column (index : Fin 2) ↦
      if index = 0 then 1 else if column = 2 then 2 else 0 := by
    refine (hlinked.withCosts costs).priced_of_activeColumns hactive
      (fun column hcolumn ↦ hcosts column hcolumn) ?_
    unfold Amount.Fits
    decide +kernel
  have hunsigned : bench.matrix.Unsigned costs _ :=
    ⟨fun column hcolumn ↦ hunsigns column (hlisted column hcolumn), hpriced⟩
  obtain ⟨hanswer, -, -⟩ := cost_eq_of_unsigned hreachable hunsigned
    (.inl fun column hcolumn ↦ hleads column (hlisted column hcolumn)) bench.stats bench.journal
  rcases hanswer with ⟨row, -, hplain⟩ | ⟨cover, hcover, -, hplain⟩
  · cases (hplain .exhaustive bench.stats bench.journal).symm.trans hsolve
  · obtain ⟨found, hfound, hcost⟩ := hplain .exhaustive bench.stats bench.journal
    obtain rfl : found = ⟨⟨2.0, 0.0⟩, [0, 1]⟩ :=
      Answer.cover.inj (Except.ok.inj (hfound.symm.trans hsolve))
    exact ⟨hsigned, cover, hcover, hcost.symm⟩

/-- Each of three columns covers the only row.  One of them has a negative zero in its first component,
so it comes before the cheapest one and makes up the lower bound: the search stops at a dearer column. -/
theorem cost_ne_of_negativeZero :
    let bench (primary : Float) := Operation.afterAll [.insert 0 0, .insert 0 1, .insert 0 2,
      .setCost 0 0 0.0, .setCost 0 1 4.0, .setCost 1 0 primary, .setCost 1 1 5.0, .setCost 2 0 0.0,
      .setCost 2 1 3.0] (Workbench.blank PairCost 1 3 false)
    let bounded := { Config.exhaustive with lowerBound := true }
    (bench (-0.0)).matrix.costOf 1 = ⟨-0.0, 5.0⟩ ∧ (bench 0.0).matrix.costOf 1 = ⟨0.0, 5.0⟩ ∧
      (⟨-0.0, 5.0⟩ : PairCost) < ⟨0.0, 3.0⟩ ∧
      Calls.answer (solve bounded) (bench (-0.0)) = .ok (.cover ⟨⟨0.0, 4.0⟩, [0]⟩) ∧
      Calls.answer (solve bounded) (bench 0.0) = .ok (.cover ⟨⟨0.0, 3.0⟩, [2]⟩) := by
  decide +kernel

end Workbench

end SetCover

import SetCover.Proofs.Search.Finding

/-!
# The first of the cheapest candidates

Of two sets of columns the one that has the least column in which they differ comes first.  If no column
is free, then of the cheapest candidates none contains another one, and a search that looks at the
candidates with a column before it looks at those without it, and that goes on only for something
strictly cheaper, finds the first of them.
-/

namespace SetCover

/-! ## Precedence -/

section Precedence

variable {first second chosen : Finset Nat}

/-- The sets are equal, or the first one has the least column in which they differ. -/
def ComesFirst (first second : Finset Nat) : Prop :=
  first = second ∨ ∃ column ∈ first, column ∉ second ∧
    ∀ other < column, other ∈ first ↔ other ∈ second

theorem ComesFirst.antisymm (h : ComesFirst first second) (hother : ComesFirst second first) :
    first = second := by
  rcases h with heq | ⟨column, hcolumn, hnew, hbelow⟩
  · exact heq
  rcases hother with heq | ⟨other, hother, hothernew, hotherbelow⟩
  · exact heq.symm
  rcases lt_trichotomy column other with hlt | rfl | hlt
  · exact absurd ((hotherbelow column hlt).mpr hcolumn) hnew
  · exact absurd hother hnew
  · exact absurd ((hbelow other hlt).mpr hother) hothernew

/-- Further columns in both sets change nothing. -/
theorem ComesFirst.union (h : ComesFirst first second) (hdisjoint : Disjoint chosen first) :
    ComesFirst (chosen ∪ first) (chosen ∪ second) := by
  rcases h with rfl | ⟨column, hcolumn, hnew, hbelow⟩
  · exact .inl rfl
  · refine .inr ⟨column, Finset.mem_union_right _ hcolumn, ?_, fun other hother ↦ ?_⟩
    · rw [Finset.mem_union, not_or]
      exact ⟨Finset.disjoint_right.mp hdisjoint hcolumn, hnew⟩
    · rw [Finset.mem_union, Finset.mem_union, hbelow other hother]

/-- A set with the least of all columns comes before one without it. -/
theorem ComesFirst.of_least {column : Nat} (hmem : column ∈ first) (hnew : column ∉ second)
    (hfirst : ∀ other ∈ first, column ≤ other) (hsecond : ∀ other ∈ second, column ≤ other) :
    ComesFirst first second := by
  refine .inr ⟨column, hmem, hnew, fun other hother ↦ iff_of_false (fun hin ↦ ?_) fun hin ↦ ?_⟩
  · exact absurd (hfirst other hin) hother.not_ge
  · exact absurd (hsecond other hin) hother.not_ge

end Precedence

/-! ## Candidates without free columns -/

variable {κ : Type} [Cost κ] {amountOf : Nat → Amount κ} {base : Amount κ} {limit : Limit κ}
  {eligible whole : Finset Nat → Prop} {found : Option (Cover κ)} {chosen : List Nat}
  {columns others : Finset Nat} {best : Option κ}

/-- Columns that are not free are needed for the price. -/
theorem Amount.eq_of_subset (hpositive : ∀ column ∈ others, amountOf column ≠ 0)
    (hsubset : columns ⊆ others)
    (hle : toLex (total amountOf others) ≤ toLex (total amountOf columns)) : columns = others := by
  have hsum : total amountOf (others \ columns) + total amountOf columns = total amountOf others :=
    Finset.sum_sdiff hsubset
  have heq : total amountOf others = total amountOf columns :=
    toLex_inj.mp (le_antisymm hle (toLex_le (total_le_of_subset hsubset)))
  have hzero : total amountOf (others \ columns) = 0 := add_eq_right.mp (hsum.trans heq)
  apply hsubset.antisymm
  intro column hcolumn
  by_contra hnew
  have hrest : {column} ⊆ others \ columns :=
    Finset.singleton_subset_iff.mpr (Finset.mem_sdiff.mpr ⟨hcolumn, hnew⟩)
  have hfree : amountOf column ≤ 0 := by
    rw [← hzero, ← Finset.sum_singleton amountOf column]
    exact total_le_of_subset hrest
  exact hpositive column hcolumn (funext fun index ↦ Nat.le_zero.mp (hfree index))

/-- No candidate that amounts to the same comes before these columns. -/
def Foremost (amountOf : Nat → Amount κ) (eligible : Finset Nat → Prop) (columns : Finset Nat) : Prop :=
  ∀ others, eligible others → Amount.total amountOf others = Amount.total amountOf columns →
    ComesFirst columns others

theorem foremost_empty
    (hpositive : ∀ columns, eligible columns → ∀ column ∈ columns, amountOf column ≠ 0) :
    Foremost amountOf eligible ∅ := fun others hothers heq ↦
  .inl (Amount.eq_of_subset (hpositive others hothers) (Finset.empty_subset others)
    (congrArg toLex heq).le)

/-- The first of the cheapest candidates below the limit, or nothing if none is below. -/
structure FindsFirst (amountOf : Nat → Amount κ) (base : Amount κ) (limit : Limit κ)
    (eligible : Finset Nat → Prop) (found : Option (Cover κ)) : Prop where
  finds : Finds amountOf base limit eligible found
  foremost : ∀ cover ∈ found, Foremost amountOf eligible cover.columns.toFinset

namespace FindsFirst

theorem none (h : Finds amountOf base limit eligible none) :
    FindsFirst amountOf base limit eligible none :=
  ⟨h, by simp⟩

theorem congr {other : Finset Nat → Prop} (h : FindsFirst amountOf base limit eligible found)
    (hiff : ∀ columns, eligible columns ↔ other columns) :
    FindsFirst amountOf base limit other found := by
  obtain rfl : eligible = other := funext fun columns ↦ propext (hiff columns)
  exact h

/-- If no column is free and every whole candidate contains the chosen columns and a rest, then the
first of the cheapest rests makes, with the chosen columns, the first of the cheapest whole candidates. -/
theorem prepend (h : FindsFirst amountOf (base + (chosen.map amountOf).sum) limit eligible found)
    (hchosen : Completing chosen eligible whole)
    (hrest : ∀ columns, whole columns → ∃ rest, eligible rest ∧ chosen.toFinset ∪ rest ⊆ columns)
    (hpositive : ∀ columns, whole columns → ∀ column ∈ columns, amountOf column ≠ 0) :
    FindsFirst amountOf base limit whole (found.map (Cover.prepend chosen)) := by
  refine ⟨h.finds.prepend_of_subset hchosen hrest, fun cover hcover others hothers heq ↦ ?_⟩
  obtain ⟨later, rfl, rfl⟩ := Option.mem_map.mp hcover
  obtain ⟨hcheapest, -⟩ := h.finds
  obtain ⟨rest, heligible, hsubset⟩ := hrest others hothers
  rw [Cover.toFinset_prepend, hchosen.total_union hcheapest.isEligible] at heq
  -- The candidate costs no more than the rest in it with the chosen columns, so it is nothing else.
  obtain rfl : chosen.toFinset ∪ rest = others := by
    apply Amount.eq_of_subset (hpositive others hothers) hsubset
    rw [heq, hchosen.total_union heligible]
    exact Amount.toLex_add_le (price_le_price_iff.mp (hcheapest.least rest heligible))
  rw [hchosen.total_union heligible] at heq
  rw [Cover.toFinset_prepend]
  exact (h.foremost later rfl rest heligible (add_left_cancel heq)).union
    (hchosen.disjoint _ hcheapest.isEligible)

/-- If the candidates of a first search come before those of a second one, which has to find something
strictly cheaper, then the two together find the first of the cheapest candidates of both. -/
theorem exists_later [LawfulCost κ] {first : Finset Nat → Prop}
    (h : FindsFirst amountOf base limit first found) (hlimit : IsLimit best limit) :
    ∃ later, IsLimit (found.map Cover.cost <|> best) later ∧
      ∀ {second : Finset Nat → Prop} {deleted},
        (∀ columns others, first columns → second others → ComesFirst columns others) →
        FindsFirst amountOf base later second deleted →
        FindsFirst amountOf base limit (fun columns ↦ first columns ∨ second columns)
          (deleted <|> found) := by
  obtain ⟨later, hlater, hleast, hboth⟩ := h.finds.exists_later hlimit
  refine ⟨later, hlater, fun {second deleted} hbefore hsecond ↦ ⟨hboth hsecond.finds, ?_⟩⟩
  cases deleted with
  | some cover =>
    rintro _ ⟨⟩ others (hothers | hothers) heq
    · have hless := hsecond.finds.2.trans_le (hleast others hothers)
      rw [price, price, heq] at hless
      exact absurd hless (lt_irrefl _)
    · exact hsecond.foremost cover rfl others hothers heq
  | none =>
    intro cover hcover others hothers heq
    obtain rfl : found = some cover := hcover
    rcases hothers with hothers | hothers
    · exact h.foremost cover rfl others hothers heq
    · exact hbefore _ _ h.finds.1.isEligible hothers

end FindsFirst

end SetCover

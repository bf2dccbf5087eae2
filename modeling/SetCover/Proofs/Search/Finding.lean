import Mathlib.Order.WithBot
import SetCover.Proofs.Search.Amounts
import SetCover.Proofs.Search.Branching

/-!
# Finding the cheapest candidate

A search has sets of columns as its candidates and must stay below the cost of the incumbent, if there
is one.  It finds a cheapest candidate, or nothing if none stays below.  What is found among the rests
that go with some chosen columns gives what is found among the whole sets, and two searches one after
the other, the second one below what the first one found, cover the candidates of both.
-/

namespace SetCover

variable {κ : Type} [Cost κ]

/-- What a candidate must stay below; every candidate is below the top. -/
abbrev Limit (κ : Type) [Cost κ] := WithTop (Lex (Amount κ))

/-- The price of a set of columns on top of what has been spent already. -/
def price (amountOf : Nat → Amount κ) (base : Amount κ) (columns : Finset Nat) : Limit κ :=
  WithTop.some (toLex (base + Amount.total amountOf columns))

/-- The amounts below the limit are those that improve on the incumbent; without one it is the top. -/
def IsLimit : Option κ → Limit κ → Prop
  | none, limit => limit = ⊤
  | some best, limit => ∀ {cost : κ} {amount : Amount κ}, Stands cost amount →
      (cost < best ↔ WithTop.some (toLex amount) < limit)

/-- The cover is a candidate and no candidate is cheaper. -/
structure Cheapest (amountOf : Nat → Amount κ) (base : Amount κ) (eligible : Finset Nat → Prop)
    (cover : Cover κ) : Prop where
  nodup : cover.columns.Nodup
  isEligible : eligible cover.columns.toFinset
  stands : Stands cover.cost (base + Amount.total amountOf cover.columns.toFinset)
  least : ∀ columns, eligible columns →
    price amountOf base cover.columns.toFinset ≤ price amountOf base columns

/-- A cheapest candidate below the limit, or nothing if there is none below. -/
def Finds (amountOf : Nat → Amount κ) (base : Amount κ) (limit : Limit κ)
    (eligible : Finset Nat → Prop) : Option (Cover κ) → Prop
  | none => ∀ columns, eligible columns → limit ≤ price amountOf base columns
  | some cover => Cheapest amountOf base eligible cover ∧
      price amountOf base cover.columns.toFinset < limit

variable {amountOf : Nat → Amount κ} {base amount : Amount κ} {limit later : Limit κ}
  {eligible whole : Finset Nat → Prop} {found deleted : Option (Cover κ)} {chosen : List Nat}
  {columns others : Finset Nat} {cost : κ} {best : Option κ}

theorem improves_iff [LawfulCost κ] (hstands : Stands cost amount) (hlimit : IsLimit best limit) :
    Workbench.improves cost best = true ↔ WithTop.some (toLex amount) < limit := by
  cases best with
  | none =>
    obtain rfl : limit = ⊤ := hlimit
    exact iff_of_true rfl (WithTop.coe_lt_top _)
  | some best =>
    rw [Workbench.improves, decide_eq_true_iff]
    exact hlimit hstands

/-- An incumbent that stands for an amount is limited by it. -/
theorem Stands.isLimit [LawfulCost κ] (hstands : Stands cost amount) :
    IsLimit (some cost) (WithTop.some (toLex amount)) := by
  intro other further hother
  rw [hother.lt_iff hstands]
  exact WithTop.coe_lt_coe.symm

theorem price_empty : price amountOf base ∅ = WithTop.some (toLex base) := by
  rw [price, Amount.total_empty, add_zero]

theorem price_le_price_iff : price amountOf base columns ≤ price amountOf base others ↔
    toLex (Amount.total amountOf columns) ≤ toLex (Amount.total amountOf others) := by
  rw [price, price, WithTop.coe_le_coe]
  exact add_le_add_iff_left (toLex base)

theorem price_union (hnodup : chosen.Nodup) (hdisjoint : Disjoint chosen.toFinset columns) :
    price amountOf base (chosen.toFinset ∪ columns) =
      price amountOf (base + (chosen.map amountOf).sum) columns := by
  have hsum : base + Amount.total amountOf (chosen.toFinset ∪ columns) =
      base + (chosen.map amountOf).sum + Amount.total amountOf columns := by
    rw [Amount.total_union hdisjoint, Amount.total_toFinset hnodup, add_assoc]
  rw [price, price, hsum]

/-- Cheapest candidates cost the same. -/
theorem Cheapest.cost_eq [LawfulCost κ] {cover other : Cover κ}
    (h : Cheapest amountOf base eligible cover) (hother : Cheapest amountOf base eligible other) :
    other.cost = cover.cost := by
  have hprice := le_antisymm (hother.least _ h.isEligible) (h.least _ hother.isEligible)
  have hamount := toLex_inj.mp (WithTop.coe_injective hprice)
  have hstands := hother.stands
  rw [hamount] at hstands
  exact hstands.unique h.stands

/-- Disjoint from the chosen columns, the rests make whole candidates with them. -/
structure Completing (chosen : List Nat) (eligible whole : Finset Nat → Prop) : Prop where
  nodup : chosen.Nodup
  disjoint : ∀ columns, eligible columns → Disjoint chosen.toFinset columns
  union : ∀ columns, eligible columns → whole (chosen.toFinset ∪ columns)

theorem Completing.total_union (h : Completing chosen eligible whole) (heligible : eligible columns) :
    Amount.total amountOf (chosen.toFinset ∪ columns) =
      (chosen.map amountOf).sum + Amount.total amountOf columns := by
  rw [Amount.total_union (h.disjoint columns heligible), Amount.total_toFinset h.nodup]

/-- If every whole candidate is no cheaper than some rest with the chosen columns, then what is found
among the rests, with the chosen columns, is found among the whole candidates. -/
theorem Finds.prepend (h : Finds amountOf (base + (chosen.map amountOf).sum) limit eligible found)
    (hchosen : Completing chosen eligible whole)
    (hrest : ∀ columns, whole columns → ∃ rest, eligible rest ∧
      toLex ((chosen.map amountOf).sum + Amount.total amountOf rest) ≤
        toLex (Amount.total amountOf columns)) :
    Finds amountOf base limit whole (found.map (Cover.prepend chosen)) := by
  have hcheaper : ∀ columns, whole columns → ∃ rest, eligible rest ∧
      price amountOf (base + (chosen.map amountOf).sum) rest ≤ price amountOf base columns := by
    intro columns hcolumns
    obtain ⟨rest, heligible, hle⟩ := hrest columns hcolumns
    refine ⟨rest, heligible, WithTop.coe_le_coe.mpr ?_⟩
    rw [add_assoc]
    exact Amount.toLex_add_le hle
  cases found with
  | none =>
    intro columns hcolumns
    obtain ⟨rest, heligible, hle⟩ := hcheaper columns hcolumns
    calc limit ≤ price amountOf (base + (chosen.map amountOf).sum) rest := h rest heligible
      _ ≤ price amountOf base columns := hle
  | some cover =>
    obtain ⟨hcheapest, hbelow⟩ := h
    have hapart := hchosen.disjoint _ hcheapest.isEligible
    have hset := cover.toFinset_prepend chosen
    have hprice : price amountOf base (cover.prepend chosen).columns.toFinset =
        price amountOf (base + (chosen.map amountOf).sum) cover.columns.toFinset := by
      rw [hset, price_union hchosen.nodup hapart]
    refine ⟨⟨?_, ?_, ?_, fun columns hcolumns ↦ ?_⟩, ?_⟩
    · refine List.nodup_append'.mpr ⟨hchosen.nodup, hcheapest.nodup, ?_⟩
      exact List.disjoint_toFinset_iff_disjoint.mp hapart
    · rw [hset]
      exact hchosen.union _ hcheapest.isEligible
    · rw [hset, Amount.total_union hapart, Amount.total_toFinset hchosen.nodup, ← add_assoc]
      exact hcheapest.stands
    · obtain ⟨rest, heligible, hle⟩ := hcheaper columns hcolumns
      calc price amountOf base (cover.prepend chosen).columns.toFinset
          = price amountOf (base + (chosen.map amountOf).sum) cover.columns.toFinset := hprice
        _ ≤ price amountOf (base + (chosen.map amountOf).sum) rest := hcheapest.least rest heligible
        _ ≤ price amountOf base columns := hle
    · rwa [hprice]

/-- What is found among the rests is found if every whole candidate contains the chosen columns and a
rest. -/
theorem Finds.prepend_of_subset
    (h : Finds amountOf (base + (chosen.map amountOf).sum) limit eligible found)
    (hchosen : Completing chosen eligible whole)
    (hrest : ∀ columns, whole columns → ∃ rest, eligible rest ∧ chosen.toFinset ∪ rest ⊆ columns) :
    Finds amountOf base limit whole (found.map (Cover.prepend chosen)) := by
  refine h.prepend hchosen fun columns hcolumns ↦ ?_
  obtain ⟨rest, heligible, hsubset⟩ := hrest columns hcolumns
  refine ⟨rest, heligible, ?_⟩
  rw [← hchosen.total_union heligible]
  exact Amount.toLex_le (Amount.total_le_of_subset hsubset)

/-- After a first search, a second one has to stay below what was found, or else below the incumbent,
and so below every candidate of the first; the two together search the candidates of both. -/
theorem Finds.exists_later [LawfulCost κ] {first : Finset Nat → Prop}
    (h : Finds amountOf base limit first found) (hlimit : IsLimit best limit) :
    ∃ later, IsLimit (found.map Cover.cost <|> best) later ∧
      (∀ columns, first columns → later ≤ price amountOf base columns) ∧
      ∀ {second : Finset Nat → Prop} {deleted}, Finds amountOf base later second deleted →
        Finds amountOf base limit (fun columns ↦ first columns ∨ second columns) (deleted <|> found) := by
  cases found with
  | none =>
    refine ⟨limit, hlimit, h, fun {second deleted} hsecond ↦ ?_⟩
    cases deleted with
    | none => exact fun columns hcolumns ↦ hcolumns.elim (h columns) (hsecond columns)
    | some cover =>
      obtain ⟨hcheapest, hbelow⟩ := hsecond
      refine ⟨⟨hcheapest.nodup, .inr hcheapest.isEligible, hcheapest.stands, fun columns hcolumns ↦ ?_⟩,
        hbelow⟩
      exact hcolumns.elim (fun hfirst ↦ hbelow.le.trans (h columns hfirst)) (hcheapest.least columns)
  | some cover =>
    obtain ⟨hcheapest, hbelow⟩ := h
    refine ⟨price amountOf base cover.columns.toFinset, hcheapest.stands.isLimit, hcheapest.least,
      fun {second deleted} hsecond ↦ ?_⟩
    cases deleted with
    | none =>
      refine ⟨⟨hcheapest.nodup, .inl hcheapest.isEligible, hcheapest.stands, fun columns hcolumns ↦ ?_⟩,
        hbelow⟩
      exact hcolumns.elim (hcheapest.least columns) (hsecond columns)
    | some other =>
      obtain ⟨hcheaper, hless⟩ := hsecond
      refine ⟨⟨hcheaper.nodup, .inr hcheaper.isEligible, hcheaper.stands, fun columns hcolumns ↦ ?_⟩,
        hless.trans hbelow⟩
      exact hcolumns.elim (fun hfirst ↦ hless.le.trans (hcheapest.least columns hfirst))
        (hcheaper.least columns)

theorem Finds.congr {other : Finset Nat → Prop} (h : Finds amountOf base limit eligible found)
    (hiff : ∀ columns, eligible columns ↔ other columns) : Finds amountOf base limit other found := by
  obtain rfl : eligible = other := funext fun columns ↦ propext (hiff columns)
  exact h

end SetCover

import Mathlib.Order.WellFoundedSet
import SetCover.Proofs.Search.Abreast
import SetCover.Search.Dominance

/-!
# Sweeps

A dominance rule sweeps over lines of one axis once and deletes some of them on the way.  All of them
are beaten by another line, in an order of the lines.  Behind every beaten line there is a line that
beats it and that nothing beats.  Such a line is never deleted, so the sweep comes to it, and no beaten
line has to be looked at twice.
-/

namespace SetCover

/-- Behind every beaten member of a list there is one that beats it and that nothing beats. -/
theorem exists_unbeaten {beats : Nat → Nat → Prop} [IsStrictOrder Nat beats] {lines : List Nat}
    {line other : Nat} (hother : other ∈ lines) (hbeats : beats other line) :
    ∃ best ∈ lines, beats best line ∧ ∀ third ∈ lines, ¬beats third best := by
  have hfounded : Set.WellFoundedOn {line | line ∈ lines} beats :=
    (List.finite_toSet lines).wellFoundedOn
  revert hbeats
  apply hfounded.induction hother
  intro other hother ih hbeats
  by_cases hbeaten : ∃ third ∈ lines, beats third other
  · obtain ⟨third, hthird, hless⟩ := hbeaten
    exact ih third hthird hless (trans_of beats hless hbeats)
  · push Not at hbeaten
    exact ⟨other, hother, hbeats, hbeaten⟩

namespace Matrix

variable {κ : Type} {matrix : Matrix κ} {axis : Axis} {first second dropped : List Nat}
  {beats : Nat → Nat → Prop}

theorem deletedAll_append : matrix.deletedAll axis (first ++ second) =
    (matrix.deletedAll axis first).deletedAll axis second :=
  List.foldl_append

/-- Different active lines of an axis, each of which another active line beats. -/
structure Beaten (matrix : Matrix κ) (axis : Axis) (beats : Nat → Nat → Prop) (dropped : List Nat) :
    Prop where
  nodup : dropped.Nodup
  active : ∀ line ∈ dropped, matrix.isActive ⟨axis, line⟩ = true
  beaten : ∀ line ∈ dropped, ∃ other ∈ matrix.active axis, beats other line

namespace Beaten

theorem nil : matrix.Beaten axis beats [] := ⟨List.nodup_nil, by simp, by simp⟩

theorem allDeleted (h : matrix.Beaten axis beats dropped) (hmatrix : matrix.Linked)
    (hsettled : matrix.Settled) :
    AllDeleted axis dropped matrix (matrix.deletedAll axis dropped) :=
  (forM_delete hmatrix hsettled h.nodup h.active).2

/-- What is beaten among the lines that are left joins those that were dropped before. -/
theorem append (h : matrix.Beaten axis beats first) (hmatrix : matrix.Linked)
    (hsettled : matrix.Settled) (hmore : (matrix.deletedAll axis first).Beaten axis beats second) :
    matrix.Beaten axis beats (first ++ second) := by
  have hdeleted := h.allDeleted hmatrix hsettled
  have hleft {line : Nat} (hline : line ∈ second) := (hdeleted.parallel line).mp (hmore.active line hline)
  have hlinked := hdeleted.deletes.linked hmatrix hsettled
  refine ⟨?_, fun line hline ↦ ?_, fun line hline ↦ ?_⟩
  · refine List.nodup_append'.mpr ⟨h.nodup, hmore.nodup, fun line hbefore hafter ↦ ?_⟩
    exact (hleft hafter).2 hbefore
  · rcases List.mem_append.mp hline with hbefore | hafter
    · exact h.active line hbefore
    · exact (hleft hafter).1
  · rcases List.mem_append.mp hline with hbefore | hafter
    · exact h.beaten line hbefore
    · obtain ⟨other, hother, hbeats⟩ := hmore.beaten line hafter
      have hactive := (hdeleted.parallel other).mp (hlinked.mem_active.mpr hother)
      exact ⟨other, hmatrix.mem_active.mp hactive.1, hbeats⟩

/-- What was dropped and what is left are all that there was. -/
theorem length_active (h : matrix.Beaten axis beats dropped) (hmatrix : matrix.Linked)
    (hsettled : matrix.Settled) :
    ((matrix.deletedAll axis dropped).active axis).length + dropped.length =
      (matrix.active axis).length := by
  have hdeleted := h.allDeleted hmatrix hsettled
  have hlinked := hdeleted.deletes.linked hmatrix hsettled
  have hleft {line : Nat} : line ∈ (matrix.deletedAll axis dropped).active axis ↔
      line ∈ matrix.active axis ∧ line ∉ dropped := by
    calc line ∈ (matrix.deletedAll axis dropped).active axis
        ↔ (matrix.deletedAll axis dropped).isActive ⟨axis, line⟩ = true :=
          (@Linked.mem_active _ _ ⟨axis, line⟩ hlinked).symm
      _ ↔ matrix.isActive ⟨axis, line⟩ = true ∧ line ∉ dropped := hdeleted.parallel line
      _ ↔ line ∈ matrix.active axis ∧ line ∉ dropped :=
        and_congr_left' (@Linked.mem_active _ _ ⟨axis, line⟩ hmatrix)
  have hperm : ((matrix.deletedAll axis dropped).active axis ++ dropped).Perm (matrix.active axis) := by
    refine (List.perm_ext_iff_of_nodup ?_ (hmatrix.lines axis).nodup_active).mpr fun line ↦ ?_
    · exact List.nodup_append'.mpr ⟨(hlinked.lines axis).nodup_active, h.nodup,
        fun line hline hdropped ↦ (hleft.mp hline).2 hdropped⟩
    · rw [List.mem_append, hleft]
      refine ⟨fun hline ↦ hline.elim And.left fun hdropped ↦ hmatrix.mem_active.mp (h.active line hdropped),
        fun hline ↦ ?_⟩
      exact (em (line ∈ dropped)).elim .inr fun hkept ↦ .inl ⟨hline, hkept⟩
  rw [← List.length_append, hperm.length_eq]

/-- If a line is dropped whenever one that nothing beats beats it, then all beaten lines are. -/
theorem mem_iff [IsStrictOrder Nat beats] (h : matrix.Beaten axis beats dropped)
    (hcomplete : ∀ best ∈ matrix.active axis, best ∉ dropped →
      ∀ line ∈ matrix.active axis, beats best line → line ∈ dropped) {line : Nat}
    (hline : line ∈ matrix.active axis) :
    line ∈ dropped ↔ ∃ other ∈ matrix.active axis, beats other line := by
  refine ⟨h.beaten line, fun ⟨other, hother, hbeats⟩ ↦ ?_⟩
  obtain ⟨best, hbest, hbeats, hunbeaten⟩ := exists_unbeaten hother hbeats
  refine hcomplete best hbest (fun hdropped ↦ ?_) line hline hbeats
  obtain ⟨third, hthird, hless⟩ := h.beaten best hdropped
  exact hunbeaten third hthird hless

end Beaten

end Matrix

/-! ## Lists of crossing lines -/

/-- An ascending list within another one has fewer members, or they are equal. -/
theorem ssubset_or_eq_iff {left right : List Nat} {onLess onEqual : Prop}
    (hleft : left.Pairwise (· < ·)) (hright : right.Pairwise (· < ·)) :
    left.toFinset ⊂ right.toFinset ∧ onLess ∨ left = right ∧ onEqual ↔
      (left.length < right.length ∧ onLess ∨ right.length = left.length ∧ onEqual) ∧
        ∀ element ∈ left, element ∈ right := by
  have hsubset : left.toFinset ⊆ right.toFinset ↔ ∀ element ∈ left, element ∈ right := by
    simp [Finset.subset_iff]
  have hleftCard := List.toFinset_card_of_nodup (hleft.imp Nat.ne_of_lt)
  have hrightCard := List.toFinset_card_of_nodup (hright.imp Nat.ne_of_lt)
  constructor
  · rintro (⟨hless, honLess⟩ | ⟨rfl, honEqual⟩)
    · have hcard := Finset.card_lt_card hless
      rw [hleftCard, hrightCard] at hcard
      exact ⟨.inl ⟨hcard, honLess⟩, hsubset.mp hless.1⟩
    · exact ⟨.inr ⟨rfl, honEqual⟩, fun _ hmem ↦ hmem⟩
  · rintro ⟨⟨hless, honLess⟩ | ⟨hlength, honEqual⟩, hall⟩
    · refine .inl ⟨Finset.ssubset_iff_subset_ne.mpr ⟨hsubset.mpr hall, fun heq ↦ ?_⟩, honLess⟩
      rw [← hleftCard, ← hrightCard, heq] at hless
      exact lt_irrefl _ hless
    · have hnodup : left.Nodup := hleft.imp Nat.ne_of_lt
      have hperm := (hnodup.subperm hall).perm_of_length_le hlength.le
      exact .inr ⟨hperm.eq_of_pairwise' hleft hright, honEqual⟩

theorem ssubset_or_eq_of_subset {left right : List Nat} (hleft : left.Pairwise (· < ·))
    (hright : right.Pairwise (· < ·)) (hsubset : left ⊆ right) :
    left.toFinset ⊂ right.toFinset ∨ left = right := by
  have hnodup : left.Nodup := hleft.imp Nat.ne_of_lt
  have hlength : left.length ≤ right.length := (hnodup.subperm hsubset).length_le
  have hiff := @ssubset_or_eq_iff left right True True hleft hright
  simp only [and_true] at hiff
  exact hiff.mpr ⟨by omega, hsubset⟩

namespace Workbench

open SetCover.Matrix

variable {κ : Type} {matrix : Matrix κ} {axis : Axis} {step : Nat → Work κ Nat}
  {change : Stats → Stats}

/-- Counting one thing several times counts several things. -/
theorem iterate_eq_of_succ {add : Nat → Stats → Stats} (hzero : add 0 = id)
    (hsucc : ∀ count, add (count + 1) = add 1 ∘ add count) (count : Nat) :
    (add 1)^[count] = add count := by
  induction count with
  | zero => exact hzero.symm
  | succ count ih =>
    rw [Function.iterate_succ', ih]
    exact (hsucc count).symm

/-- The call deletes the lines, counts each of them and answers how many there were. -/
def Drops (work : Work κ Nat) (matrix : Matrix κ) (axis : Axis) (change : Stats → Stats)
    (dropped : List Nat) : Prop :=
  Reaches work matrix change^[dropped.length] dropped.length (matrix.deletedAll axis dropped)

/-- A sweep drops what its steps drop, if every step is taken as the invariant says of the lines ahead
and of those dropped so far. -/
theorem drops_foldlM (invariant : List Nat → List Nat → Prop)
    (hstep : ∀ line rest dropped, invariant (line :: rest) dropped → ∃ more,
      Drops (step line) (matrix.deletedAll axis dropped) axis change more ∧
        invariant rest (dropped ++ more))
    {lines dropped : List Nat} (h : invariant lines dropped) (deleted : Nat) :
    ∃ more, Reaches (lines.foldlM (fun deleted line ↦ return deleted + (← step line)) deleted)
        (matrix.deletedAll axis dropped) change^[more.length] (deleted + more.length)
        (matrix.deletedAll axis (dropped ++ more)) ∧ invariant [] (dropped ++ more) := by
  induction lines generalizing dropped deleted with
  | nil =>
    refine ⟨[], ?_, ?_⟩
    · rw [List.append_nil]
      exact Reaches.pure deleted
    · rwa [List.append_nil]
  | cons line rest ih =>
    obtain ⟨more, hdrops, hmore⟩ := hstep line rest dropped h
    obtain ⟨others, hrest, hothers⟩ := ih hmore (deleted + more.length)
    rw [Drops, ← deletedAll_append] at hdrops
    rw [List.append_assoc] at hrest hothers
    have hlength : deleted + (more ++ others).length = deleted + more.length + others.length := by
      rw [List.length_append, Nat.add_assoc]
    have hchange : change^[(more ++ others).length] = change^[others.length] ∘ change^[more.length] := by
      rw [List.length_append, Nat.add_comm, Function.iterate_add]
    refine ⟨more ++ others, ?_, hothers⟩
    rw [List.foldlM_cons, hlength, hchange]
    exact (hdrops.map (deleted + ·)).bind hrest

/-- What is known before every step of the lines ahead and of those dropped so far is known after a
sweep over the active lines of an axis. -/
theorem exists_reaches_sweep {sweeps : List Nat → List Nat → Prop}
    (hstart : (∀ line ∈ matrix.active axis, line ∈ matrix.activeBySize axis) →
      sweeps (matrix.activeBySize axis) [])
    (hstep : ∀ line ∈ matrix.active axis, ∀ rest dropped, sweeps (line :: rest) dropped → ∃ more,
      Drops (step line) (matrix.deletedAll axis dropped) axis change more ∧
        sweeps rest (dropped ++ more)) : ∃ dropped,
    Reaches (do
      let lines := (← table).activeBySize axis
      let deleted ← lines.foldlM (fun deleted line ↦ return deleted + (← step line)) 0
      return decide (0 < deleted)) matrix change^[dropped.length] (decide (0 < dropped.length))
        (matrix.deletedAll axis dropped) ∧ sweeps [] dropped := by
  let invariant (ahead dropped : List Nat) : Prop :=
    (∀ line ∈ ahead, line ∈ matrix.active axis) ∧ sweeps ahead dropped
  have hlines : invariant (matrix.activeBySize axis) [] :=
    ⟨fun line hline ↦ List.mem_mergeSort.mp hline, hstart fun line hline ↦ List.mem_mergeSort.mpr hline⟩
  have hnext : ∀ line rest dropped, invariant (line :: rest) dropped → ∃ more,
      Drops (step line) (matrix.deletedAll axis dropped) axis change more ∧
        invariant rest (dropped ++ more) := by
    intro line rest dropped ⟨hactive, hsweeps⟩
    obtain ⟨more, hdrops, hmore⟩ := hstep line (hactive line List.mem_cons_self) rest dropped hsweeps
    exact ⟨more, hdrops, fun other hother ↦ hactive other (List.mem_cons_of_mem line hother), hmore⟩
  obtain ⟨dropped, hsweep, -, hswept⟩ := drops_foldlM invariant hnext hlines 0
  rw [List.nil_append, Nat.zero_add] at hsweep
  exact ⟨dropped, Reaches.table (hsweep.map fun deleted ↦ decide (0 < deleted)), hswept⟩

/-- The call answers and does nothing else, not even report. -/
def Idles {α : Type} (work : Work κ α) (matrix : Matrix κ) (result : α) : Prop :=
  ∀ stats journal, work ⟨matrix, stats, journal⟩ = .ok result ⟨matrix, stats, journal⟩

namespace Idles

variable {α β : Type} {work : Work κ α} {rest : α → Work κ β} {result : α} {answer : β}

theorem pure (result : α) : Idles (Pure.pure result : Work κ α) matrix result :=
  fun _ _ ↦ rfl

theorem bind (h : Idles work matrix result) (hrest : Idles (rest result) matrix answer) :
    Idles (work >>= rest) matrix answer :=
  fun stats journal ↦ (Calls.bind_ok (h stats journal)).trans (hrest stats journal)

theorem table {rest : Matrix κ → Work κ β} (h : Idles (rest matrix) matrix answer) :
    Idles (Workbench.table >>= rest) matrix answer :=
  fun stats journal ↦ h stats journal

theorem reaches (h : Idles work matrix result) : Reaches work matrix id result matrix :=
  fun stats journal ↦ ⟨journal, h stats journal⟩

theorem foldlM {lines : List Nat} (h : ∀ line ∈ lines, Idles (step line) matrix 0) (deleted : Nat) :
    Idles (lines.foldlM (fun deleted line ↦ return deleted + (← step line)) deleted) matrix deleted := by
  induction lines with
  | nil => exact pure deleted
  | cons line rest ih =>
    rw [List.foldlM_cons]
    have hstep : Idles (do return deleted + (← step line)) matrix deleted :=
      (h line List.mem_cons_self).bind (pure deleted)
    exact hstep.bind (ih fun other hother ↦ h other (List.mem_cons_of_mem line hother))

theorem sweep (h : ∀ line, Idles (step line) matrix 0) :
    Idles (do
      let lines := (← Workbench.table).activeBySize axis
      let deleted ← lines.foldlM (fun deleted line ↦ return deleted + (← step line)) 0
      return decide (0 < deleted)) matrix false :=
  table ((foldlM (fun line _ ↦ h line) 0).bind (pure false))

end Idles

end Workbench

end SetCover

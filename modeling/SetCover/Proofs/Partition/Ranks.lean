import Mathlib.Data.Set.Card
import SetCover.Proofs.Partition.Closure

/-!
# Ranks of a partition

Shortening paths changes no rank, and merging raises one only if it links two representatives of equal
rank.  If both their classes have as many elements as two to the power of that rank, the class that comes
of them has twice as many, so this holds of every class after any calls.  As ranks also grow along every
path, no path is closed, both loops of a look-up come to their end, and no rank outgrows a byte.
-/

namespace SetCover.Partition

open Relation

variable {partition next : Partition} {size element other left right top : Nat}

/-! ## Ranks that change -/

theorem rankOf_compress (top steps element : Nat) (partition : Partition) (other : Nat) :
    (compress top steps element partition).rankOf other = partition.rankOf other := by
  induction steps generalizing element partition with
  | zero => rfl
  | succ steps ih =>
    rw [compress]
    split
    · rfl
    · exact ih _ _

theorem rankOf_located : (partition.located left right).rankOf other = partition.rankOf other :=
  (rankOf_compress ..).trans (rankOf_compress ..)

theorem rankOf_link (h : partition.Ranked) (hleft : left < partition.size) :
    (partition.link left right).2.rankOf other =
      if (left ≠ right ∧ partition.rankOf left = partition.rankOf right) ∧
        other = (partition.link left right).1
      then partition.rankOf other + 1 else partition.rankOf other := by
  rw [link]
  split
  · rename_i heq
    exact (if_neg fun htied ↦ htied.1.1 heq).symm
  · rename_i hne
    split
    · rename_i hless
      exact (if_neg fun htied ↦ hless.ne htied.1.2).symm
    · split
      · rename_i heq
        change (partition.raise left).rankOf other = _
        rw [rankOf_raise h hleft]
        by_cases htop : other = left
        · rw [if_pos htop, if_pos ⟨⟨hne, heq⟩, htop⟩, htop]
        · rw [if_neg htop, if_neg fun htied ↦ htop htied.2]
      · rename_i hunequal
        exact (if_neg fun htied ↦ hunequal htied.1.2).symm

/-- The elements are of different classes whose representatives are of equal rank. -/
def Tied (partition : Partition) (left right : Nat) : Prop :=
  partition.root left ≠ partition.root right ∧
    partition.rankOf (partition.root left) = partition.rankOf (partition.root right)

instance : Decidable (partition.Tied left right) := inferInstanceAs (Decidable (_ ∧ _))

theorem Ranked.rankOf_unite (h : partition.Ranked) (hleft : left < partition.size)
    (hright : right < partition.size) (other : Nat) :
    (partition.unite left right).2.rankOf other =
      if partition.Tied left right ∧ other = (partition.unite left right).1
      then partition.rankOf other + 1 else partition.rankOf other := by
  have hlocated := h.sameRoots_located hleft hright
  have hroot : partition.root left < (partition.located left right).size := by
    rw [hlocated.size_eq]
    exact h.root_lt hleft
  rw [h.unite_eq_link hleft hright, rankOf_link hlocated.ranked hroot]
  simp only [rankOf_located]
  exact if_congr Iff.rfl rfl rfl

/-! ## Sizes of classes -/

/-- The elements with the same representative. -/
def classOf (partition : Partition) (element : Nat) : Finset Nat :=
  (Finset.range partition.size).filter fun other ↦ partition.root other = partition.root element

theorem mem_classOf : other ∈ partition.classOf element ↔
    other < partition.size ∧ partition.root other = partition.root element := by
  rw [classOf, Finset.mem_filter, Finset.mem_range]

theorem card_classOf_le : (partition.classOf element).card ≤ partition.size :=
  (Finset.card_filter_le _ _).trans_eq (Finset.card_range _)

theorem disjoint_classOf (hne : partition.root left ≠ partition.root right) :
    Disjoint (partition.classOf left) (partition.classOf right) :=
  Finset.disjoint_left.mpr fun _ hleft hright ↦
    hne ((mem_classOf.mp hleft).2.symm.trans (mem_classOf.mp hright).2)

/-- A class has at least as many elements as two to the power of its representative's rank. -/
def Weighty (partition : Partition) : Prop :=
  ∀ element < partition.size,
    2 ^ partition.rankOf (partition.root element) ≤ (partition.classOf element).card

theorem weighty_singletons (size : Nat) : (singletons size).Weighty := by
  intro element helement
  have hrank : (singletons size).rankOf ((singletons size).root element) = 0 := by
    simp only [rankOf, singletons, Array.getD_eq_getD_getElem?, Array.getElem?_replicate]
    split <;> rfl
  rw [hrank]
  exact Finset.card_pos.mpr ⟨element, mem_classOf.mpr ⟨helement, rfl⟩⟩

theorem SameRoots.weighty (h : partition.SameRoots next)
    (hrank : ∀ element, next.rankOf element = partition.rankOf element)
    (hweighty : partition.Weighty) : next.Weighty := by
  intro element helement
  rw [h.size_eq] at helement
  have hclass : next.classOf element = partition.classOf element := by
    ext other
    rw [mem_classOf, mem_classOf, h.size_eq, h.root_eq element helement]
    exact and_congr_right fun hother ↦ by rw [h.root_eq other hother]
  rw [hclass, hrank, h.root_eq element helement]
  exact hweighty element helement

namespace Joined

theorem classOf_joined (h : partition.Joined left right next top) (helement : element < partition.size)
    (hjoined : partition.root element = partition.root left ∨
      partition.root element = partition.root right) :
    next.classOf element = partition.classOf left ∪ partition.classOf right := by
  ext other
  rw [mem_classOf, Finset.mem_union, mem_classOf, mem_classOf, h.size_eq, h.root_eq element helement,
    if_pos hjoined, ← and_or_left]
  refine and_congr_right fun hother ↦ ?_
  rw [h.root_eq other hother]
  split
  · rename_i hboth
    exact iff_of_true rfl hboth
  · rename_i hapart
    exact iff_of_false (fun heq ↦ hapart (h.top_eq.imp heq.trans heq.trans)) hapart

theorem classOf_apart (h : partition.Joined left right next top) (helement : element < partition.size)
    (hapart : ¬(partition.root element = partition.root left ∨
      partition.root element = partition.root right)) :
    next.classOf element = partition.classOf element := by
  ext other
  rw [mem_classOf, mem_classOf, h.size_eq, h.root_eq element helement, if_neg hapart]
  refine and_congr_right fun hother ↦ ?_
  rw [h.root_eq other hother]
  split
  · rename_i hjoined
    refine iff_of_false (fun heq ↦ hapart (h.top_eq.imp heq.symm.trans heq.symm.trans)) fun heq ↦ ?_
    rw [heq] at hjoined
    exact hapart hjoined
  · rfl

theorem weighty (h : partition.Joined left right next top) (hleft : left < partition.size)
    (hright : right < partition.size)
    (hrank : ∀ element, next.rankOf element =
      if partition.Tied left right ∧ element = top
      then partition.rankOf element + 1 else partition.rankOf element)
    (hweighty : partition.Weighty) : next.Weighty := by
  intro element helement
  rw [h.size_eq] at helement
  rw [h.root_eq element helement]
  split
  · rename_i hjoined
    have hleftClass := hweighty left hleft
    have hrightClass := hweighty right hright
    rw [h.classOf_joined helement hjoined, hrank]
    split
    · rename_i htied
      obtain ⟨⟨hne, hequal⟩, -⟩ := htied
      have htop : partition.rankOf top = partition.rankOf (partition.root left) := by
        rcases h.top_eq with heq | heq
        · rw [heq]
        · rw [heq, hequal]
      calc 2 ^ (partition.rankOf top + 1)
          = 2 ^ partition.rankOf (partition.root left) +
              2 ^ partition.rankOf (partition.root right) := by
            rw [htop, ← hequal, pow_succ, mul_two]
        _ ≤ (partition.classOf left).card + (partition.classOf right).card :=
          Nat.add_le_add hleftClass hrightClass
        _ = (partition.classOf left ∪ partition.classOf right).card :=
          (Finset.card_union_of_disjoint (disjoint_classOf hne)).symm
    · rcases h.top_eq with heq | heq
      · rw [heq]
        exact hleftClass.trans (Finset.card_le_card Finset.subset_union_left)
      · rw [heq]
        exact hrightClass.trans (Finset.card_le_card Finset.subset_union_right)
  · rename_i hapart
    have htop : partition.root element ≠ top := fun heq ↦
      hapart (h.top_eq.imp heq.trans heq.trans)
    rw [h.classOf_apart helement hapart, hrank, if_neg fun htied ↦ htop htied.2]
    exact hweighty element helement

end Joined

/-- What one request changes. -/
theorem Weighty.after (h : partition.Weighty) (hranked : partition.Ranked) (request : Request) :
    (request.after partition).Weighty := by
  rcases request.after_cases partition with
    ⟨left, right, -, hleft, hright, hafter⟩ | ⟨-, hafter | ⟨element, helement, hafter⟩⟩
  · rw [hafter]
    exact (hranked.joined_unite hleft hright).weighty hleft hright
      (hranked.rankOf_unite hleft hright) h
  · rwa [hafter]
  · rw [hafter]
    exact (hranked.sameRoots_locate helement).weighty (fun _ ↦ rankOf_compress ..) h

theorem weighty_afterAll (size : Nat) (requests : List Request) :
    (afterAll requests (singletons size)).Weighty := by
  induction requests using List.reverseRecOn with
  | nil => exact weighty_singletons size
  | append_singleton requests request ih =>
    rw [afterAll, List.foldl_append]
    exact ih.after (reflects_afterAll size requests).ranked request

theorem Ranked.rankOf_le_rankOf_root (h : partition.Ranked) (helement : element < partition.size) :
    partition.rankOf element ≤ partition.rankOf (partition.root element) := by
  rcases eq_or_ne element (partition.root element) with heq | hne
  · rw [← heq]
  · exact ((h.reaches_root helement).rankOf_lt h helement hne).le

/-- No rank is greater than the logarithm of the number of elements. -/
theorem Weighty.two_pow_rankOf_le (h : partition.Weighty) (hranked : partition.Ranked)
    (helement : element < partition.size) : 2 ^ partition.rankOf element ≤ partition.size :=
  calc 2 ^ partition.rankOf element
      ≤ 2 ^ partition.rankOf (partition.root element) :=
        Nat.pow_le_pow_right Nat.two_pos (hranked.rankOf_le_rankOf_root helement)
    _ ≤ (partition.classOf element).card := h element helement
    _ ≤ partition.size := card_classOf_le

theorem Ranked.rankOf_of_le (h : partition.Ranked) (helement : partition.size ≤ element) :
    partition.rankOf element = 0 := by
  have hbound : ¬element < partition.rank.size := by
    rw [h.size_rank]
    exact Nat.not_lt.mpr helement
  simp [rankOf, Array.getD, hbound]

theorem Weighty.rankOf_lt (h : partition.Weighty) (hranked : partition.Ranked) {bits : Nat}
    (hbits : 0 < bits) (hsize : partition.size < 2 ^ bits) (element : Nat) :
    partition.rankOf element < bits := by
  rcases Nat.lt_or_ge element partition.size with helement | helement
  · exact (Nat.pow_lt_pow_iff_right Nat.one_lt_two).mp
      ((h.two_pow_rankOf_le hranked helement).trans_lt hsize)
  · rwa [hranked.rankOf_of_le helement]

/-! ## Paths and loops -/

/-- The element hangs below another one. -/
def Hangs (partition : Partition) (element parent : Nat) : Prop :=
  element < partition.size ∧ partition.parentOf element = parent ∧ parent ≠ element

theorem Ranked.rankOf_lt_of_hangs (h : partition.Ranked) {parent : Nat}
    (hhangs : partition.Hangs element parent) :
    parent < partition.size ∧ partition.rankOf element < partition.rankOf parent := by
  obtain ⟨helement, rfl, hne⟩ := hhangs
  exact ⟨h.parentOf_lt element helement, h.rankOf_lt element helement hne⟩

theorem Ranked.rankOf_lt_of_path (h : partition.Ranked)
    (hpath : TransGen partition.Hangs element other) :
    partition.rankOf element < partition.rankOf other := by
  induction hpath with
  | single hhangs => exact (h.rankOf_lt_of_hangs hhangs).2
  | tail _ hhangs ih => exact ih.trans (h.rankOf_lt_of_hangs hhangs).2

/-- Hanging the elements on the path from an element below its representative, one after the other,
comes to its end with the second partition. -/
inductive Shortens (top : Nat) : Nat → Partition → Partition → Prop
  | done {element : Nat} {partition : Partition} (hparent : partition.parentOf element = top) :
    Shortens top element partition partition
  | hang {element : Nat} {partition last : Partition} (hparent : partition.parentOf element ≠ top)
      (hrest : Shortens top (partition.parentOf element) (partition.hang element top) last) :
    Shortens top element partition last

theorem above_hang : (partition.hang element top).above other = partition.above other := by
  rw [above, size_hang]
  rfl

theorem Ranked.shortens_compress (h : partition.Ranked) (helement : element < partition.size)
    (htop : partition.root element = top) {steps : Nat} (hsteps : partition.above element ≤ steps) :
    Shortens top element partition (compress top steps element partition) := by
  induction steps generalizing partition element with
  | zero =>
    refine .done (by_contra fun hparent ↦ ?_)
    have hhigher := h.above_parentOf_lt helement (h.sameRoots_hang helement htop hparent).1
    omega
  | succ steps ih =>
    rw [compress]
    split
    · rename_i hparent
      exact .done hparent
    · rename_i hparent
      obtain ⟨hne, hsame, hroot⟩ := h.sameRoots_hang helement htop hparent
      have hhigher := h.above_parentOf_lt helement hne
      refine .hang hparent (ih hsame.ranked ?_ hroot ?_)
      · rw [size_hang]
        exact h.parentOf_lt element helement
      · rw [above_hang]
        omega

/-- What calls do to ranks and paths after any requests.  Ranks grow from every element to its parent, so
no path is closed.  Looking an element up ends, both the way up to its representative and the way on
which it shortens the path.  The class of a representative has at least as many elements as two to the
power of its rank.  Only a merger of two classes whose representatives are of equal rank changes a
rank, by making that of the answered representative one higher; as long as the elements can be counted
in 64 bits, the higher rank is one of 8 bits. -/
theorem ranks_afterAll (size : Nat) (requests : List Request) :
    let partition := afterAll requests (singletons size)
    (∀ element parent, partition.Hangs element parent →
      parent < size ∧ partition.rankOf element < partition.rankOf parent) ∧
    (∀ element, ¬TransGen partition.Hangs element element) ∧
    (∀ element < size, ∃ top next, partition.Reaches element top ∧
      Shortens top element partition next ∧ find element partition = .ok top next ∧
      ∀ other, next.rankOf other = partition.rankOf other) ∧
    (∀ top < size, partition.parentOf top = top →
      2 ^ partition.rankOf top ≤ {element | partition.Represents top element}.ncard) ∧
    (∀ left < size, ∀ right < size, ∃ top next, merge left right partition = .ok top next ∧
      ∀ element, next.rankOf element =
        if partition.Tied left right ∧ element = top
        then partition.rankOf element + 1 else partition.rankOf element) ∧
    (size < 2 ^ 64 → ∀ element, partition.rankOf element + 1 < 2 ^ 8) := by
  intro partition
  have h : partition.Reflects size requests := reflects_afterAll size requests
  have hweighty : partition.Weighty := weighty_afterAll size requests
  clear_value partition
  obtain rfl : partition.size = size := h.size_eq
  have hranked := h.ranked
  refine ⟨fun element parent ↦ hranked.rankOf_lt_of_hangs,
    fun element hpath ↦ lt_irrefl _ (hranked.rankOf_lt_of_path hpath), fun element helement ↦ ?_,
    fun top htop hown ↦ ?_, fun left hleft right hright ↦ ?_, fun hsize element ↦ ?_⟩
  · exact ⟨_, _, hranked.reaches_root helement,
      hranked.shortens_compress helement rfl above_le_size, find_of_lt helement,
      fun other ↦ rankOf_compress ..⟩
  · have hroot := hranked.root_of_parentOf_eq htop hown
    have hclass : {element | partition.Represents top element} = ↑(partition.classOf top) := by
      ext element
      rw [Finset.mem_coe, mem_classOf, hroot]
      exact represents_iff
    have hcard := hweighty top htop
    rwa [hroot, ← Set.ncard_coe_finset, ← hclass] at hcard
  · exact ⟨_, _, merge_of_lt hleft hright, hranked.rankOf_unite hleft hright⟩
  · have hrank := hweighty.rankOf_lt hranked (Nat.succ_pos 63) hsize element
    omega

/-- Merging two pairs gives their four elements a representative of rank two. -/
theorem ranks_afterAll_pairs :
    let requests : List Request :=
      [.merge 0 1, .merge 2 3, .merge 4 9, .merge 3 1, .find 0, .merge 4 0]
    let partition := afterAll requests (singletons 5)
    partition.rankOf 2 = 2 ∧ partition.Hangs 1 0 ∧ partition.rankOf 1 < partition.rankOf 0 ∧
      2 ^ 2 ≤ {element | partition.Represents 2 element}.ncard ∧
      partition.rankOf 2 + 1 < 2 ^ 8 := by
  intro requests partition
  obtain ⟨hpaths, -, -, hclasses, -, hbyte⟩ := ranks_afterAll 5 requests
  have hrank : partition.rankOf 2 = 2 := by decide
  have hhangs : partition.Hangs 1 0 := ⟨by decide, by decide, by decide⟩
  have hclass := hclasses 2 (by decide) (by decide)
  rw [hrank] at hclass
  exact ⟨hrank, hhangs, (hpaths 1 0 hhangs).2, hclass, hbyte (by decide) 2⟩

end SetCover.Partition

import Mathlib.Data.Finset.Card
import SetCover.Partition

/-!
# Classes of a partition

Ranks grow from every element to its parent, so climbing ends at an element that is its own parent
within as many steps as there are elements.  Shortening paths keeps every representative; merging two
classes gives the elements of both the same one and leaves the others alone.
-/

namespace SetCover.Partition

variable {partition next : Partition} {element other left right target top below : Nat}

/-- Parents are elements, and ranks grow from every element to its parent. -/
structure Ranked (partition : Partition) : Prop where
  size_rank : partition.rank.size = partition.size
  parentOf_lt : ∀ element < partition.size, partition.parentOf element < partition.size
  rankOf_lt : ∀ element < partition.size, partition.parentOf element ≠ element →
    partition.rankOf element < partition.rankOf (partition.parentOf element)

theorem ranked_singletons (size : Nat) : (singletons size).Ranked where
  size_rank := by simp [singletons, Partition.size]
  parentOf_lt element helement := by rwa [parentOf_singletons]
  rankOf_lt element _ hparent := absurd (parentOf_singletons size element) hparent

/-! ## Climbing -/

/-- Climbing from an element ends at another one, which is its own parent. -/
inductive Reaches (partition : Partition) : Nat → Nat → Prop
  | top {element : Nat} (htop : partition.parentOf element = element) : Reaches partition element element
  | up {element top : Nat} (hparent : partition.parentOf element ≠ element)
      (hrest : Reaches partition (partition.parentOf element) top) : Reaches partition element top

namespace Reaches

theorem parentOf_eq (h : partition.Reaches element top) : partition.parentOf top = top := by
  induction h with
  | top htop => exact htop
  | up _ _ ih => exact ih

theorem unique (h : partition.Reaches element top) (hother : partition.Reaches element other) :
    top = other := by
  induction h with
  | top htop =>
    cases hother with
    | top => rfl
    | up hparent => exact absurd htop hparent
  | up hparent _ ih =>
    cases hother with
    | top htop => exact absurd htop hparent
    | up _ hrest => exact ih hrest

end Reaches

/-- The number of elements of a higher rank. -/
def above (partition : Partition) (element : Nat) : Nat :=
  ((Finset.range partition.size).filter fun other ↦
    partition.rankOf element < partition.rankOf other).card

theorem above_le_size : partition.above element ≤ partition.size := by
  have hcard := Finset.card_filter_le (Finset.range partition.size) fun other ↦
    partition.rankOf element < partition.rankOf other
  rwa [Finset.card_range] at hcard

theorem Ranked.above_parentOf_lt (h : partition.Ranked) (helement : element < partition.size)
    (hparent : partition.parentOf element ≠ element) :
    partition.above (partition.parentOf element) < partition.above element := by
  have hrank := h.rankOf_lt element helement hparent
  apply Finset.card_lt_card
  refine Finset.ssubset_iff_subset_ne.mpr ⟨fun other hother ↦ ?_, fun heq ↦ ?_⟩
  · rw [Finset.mem_filter] at hother ⊢
    exact ⟨hother.1, hrank.trans hother.2⟩
  · have hmem : partition.parentOf element ∈ (Finset.range partition.size).filter fun other ↦
        partition.rankOf element < partition.rankOf other :=
      Finset.mem_filter.mpr ⟨Finset.mem_range.mpr (h.parentOf_lt element helement), hrank⟩
    rw [← heq, Finset.mem_filter] at hmem
    exact lt_irrefl _ hmem.2

theorem Ranked.reaches_climb (h : partition.Ranked) (helement : element < partition.size)
    {steps : Nat} (hsteps : partition.above element ≤ steps) :
    partition.Reaches element (partition.climb steps element) := by
  induction steps generalizing element with
  | zero =>
    rw [climb]
    by_contra hparent
    have hless := h.above_parentOf_lt helement fun htop ↦ hparent (.top htop)
    omega
  | succ steps ih =>
    rw [climb]
    split
    · rename_i htop
      exact .top htop
    · rename_i hparent
      have hless := h.above_parentOf_lt helement hparent
      exact .up hparent (ih (h.parentOf_lt element helement) (by omega))

theorem Ranked.reaches_root (h : partition.Ranked) (helement : element < partition.size) :
    partition.Reaches element (partition.root element) :=
  h.reaches_climb helement above_le_size

theorem Reaches.root_eq (h : partition.Reaches element top) (hranked : partition.Ranked)
    (helement : element < partition.size) : partition.root element = top :=
  (hranked.reaches_root helement).unique h

theorem Ranked.parentOf_root (h : partition.Ranked) (helement : element < partition.size) :
    partition.parentOf (partition.root element) = partition.root element :=
  (h.reaches_root helement).parentOf_eq

theorem Reaches.lt_size (h : partition.Reaches element top) (hranked : partition.Ranked)
    (helement : element < partition.size) : top < partition.size := by
  induction h with
  | top => exact helement
  | up _ _ ih => exact ih (hranked.parentOf_lt _ helement)

theorem Ranked.root_lt (h : partition.Ranked) (helement : element < partition.size) :
    partition.root element < partition.size :=
  (h.reaches_root helement).lt_size h helement

theorem Ranked.root_of_parentOf_eq (h : partition.Ranked) (helement : element < partition.size)
    (htop : partition.parentOf element = element) : partition.root element = element :=
  (Reaches.top htop).root_eq h helement

theorem Ranked.root_parentOf (h : partition.Ranked) (helement : element < partition.size) :
    partition.root (partition.parentOf element) = partition.root element := by
  have hparent := h.reaches_root (h.parentOf_lt element helement)
  by_cases htop : partition.parentOf element = element
  · rw [htop]
  · exact ((Reaches.up htop hparent).root_eq h helement).symm

/-- A representative is of the highest rank in its class. -/
theorem Reaches.rankOf_lt (h : partition.Reaches element top) (hranked : partition.Ranked)
    (helement : element < partition.size) (hne : element ≠ top) :
    partition.rankOf element < partition.rankOf top := by
  induction h with
  | top => exact absurd rfl hne
  | @up element top hparent hrest ih =>
    have hstep := hranked.rankOf_lt element helement hparent
    by_cases heq : partition.parentOf element = top
    · rwa [heq] at hstep
    · calc partition.rankOf element < partition.rankOf (partition.parentOf element) := hstep
        _ < partition.rankOf top := ih (hranked.parentOf_lt element helement) heq

/-! ## Hanging an element elsewhere -/

theorem Ranked.hang (h : partition.Ranked) (helement : element < partition.size)
    (htarget : target < partition.size)
    (hrank : partition.rankOf element < partition.rankOf target) :
    (partition.hang element target).Ranked where
  size_rank := by
    rw [size_hang]
    exact h.size_rank
  parentOf_lt other hother := by
    rw [size_hang] at hother ⊢
    rw [parentOf_hang _ _ _ _ helement]
    split
    · exact htarget
    · exact h.parentOf_lt other hother
  rankOf_lt other hother hparent := by
    rw [size_hang] at hother
    rw [parentOf_hang _ _ _ _ helement] at hparent ⊢
    change partition.rankOf other < partition.rankOf _
    split
    · rename_i heq
      rwa [heq]
    · rename_i hne
      rw [if_neg hne] at hparent
      exact h.rankOf_lt other hother hparent

/-- What hangs below the element moves to the target with it; everything else stays. -/
theorem Reaches.hang (h : partition.Reaches element top) (hbelow : below < partition.size)
    (htarget : partition.parentOf target = target) (hne : target ≠ below)
    (hend : partition.Reaches below other) :
    ((partition.hang below target).Reaches element target ∧ top = other) ∨
      ((partition.hang below target).Reaches element top ∧ top ≠ below) := by
  have htop {position : Nat} (hposition : partition.parentOf position = position)
      (hmoved : position ≠ below) : (partition.hang below target).Reaches position position := by
    apply Reaches.top
    rw [parentOf_hang _ _ _ _ hbelow, if_neg hmoved, hposition]
  have hmoved : (partition.hang below target).Reaches below target := by
    have hparent : (partition.hang below target).parentOf below = target := by
      rw [parentOf_hang _ _ _ _ hbelow, if_pos rfl]
    apply Reaches.up
    · rwa [hparent]
    · rw [hparent]
      exact htop htarget hne
  induction h with
  | @top element hown =>
    by_cases heq : element = below
    · subst heq
      exact .inl ⟨hmoved, (Reaches.top hown).unique hend⟩
    · exact .inr ⟨htop hown heq, heq⟩
  | @up element top hparent hrest ih =>
    by_cases heq : element = below
    · subst heq
      exact .inl ⟨hmoved, (Reaches.up hparent hrest).unique hend⟩
    · have hkept : (partition.hang below target).parentOf element = partition.parentOf element := by
        rw [parentOf_hang _ _ _ _ hbelow, if_neg heq]
      have hup {last : Nat} (hlast : (partition.hang below target).Reaches
          (partition.parentOf element) last) : (partition.hang below target).Reaches element last := by
        apply Reaches.up
        · rwa [hkept]
        · rwa [hkept]
      exact ih.imp (And.imp_left hup) (And.imp_left hup)

/-- The partitions have the same elements, and these have the same representatives. -/
structure SameRoots (partition next : Partition) : Prop where
  ranked : next.Ranked
  size_eq : next.size = partition.size
  root_eq : ∀ element < partition.size, next.root element = partition.root element

theorem Ranked.sameRoots_hang_root (h : partition.Ranked) (helement : element < partition.size)
    (hne : partition.root element ≠ element) :
    partition.SameRoots (partition.hang element (partition.root element)) := by
  have hreaches := h.reaches_root helement
  have hranked := h.hang helement (h.root_lt helement) (hreaches.rankOf_lt h helement hne.symm)
  refine ⟨hranked, size_hang _ _ _, fun other hother ↦ ?_⟩
  have hsize : other < (partition.hang element (partition.root element)).size := by rwa [size_hang]
  rcases (h.reaches_root hother).hang helement hreaches.parentOf_eq hne hreaches with
    ⟨hmoved, heq⟩ | ⟨hkept, -⟩
  · rw [hmoved.root_eq hranked hsize, heq]
  · exact hkept.root_eq hranked hsize

theorem SameRoots.trans (h : partition.SameRoots next) {last : Partition}
    (hlast : next.SameRoots last) : partition.SameRoots last where
  ranked := hlast.ranked
  size_eq := hlast.size_eq.trans h.size_eq
  root_eq element helement := by
    rw [hlast.root_eq element (h.size_eq ▸ helement), h.root_eq element helement]

/-- The element goes below its representative, and its former parent keeps the same one. -/
theorem Ranked.sameRoots_hang (h : partition.Ranked) (helement : element < partition.size)
    (htop : partition.root element = top) (hparent : partition.parentOf element ≠ top) :
    partition.parentOf element ≠ element ∧ partition.SameRoots (partition.hang element top) ∧
      (partition.hang element top).root (partition.parentOf element) = top := by
  subst htop
  have hne : partition.root element ≠ element := fun heq ↦ hparent <| by
    have hfixed := h.parentOf_root helement
    rw [heq] at hfixed
    exact hfixed.trans heq.symm
  have hsame := h.sameRoots_hang_root helement hne
  refine ⟨fun hown ↦ hne (h.root_of_parentOf_eq helement hown), hsame, ?_⟩
  rw [hsame.root_eq _ (h.parentOf_lt element helement), h.root_parentOf helement]

theorem Ranked.sameRoots_compress (h : partition.Ranked) (helement : element < partition.size)
    (htop : partition.root element = top) (steps : Nat) :
    partition.SameRoots (compress top steps element partition) := by
  induction steps generalizing partition element with
  | zero => exact ⟨h, rfl, fun _ _ ↦ rfl⟩
  | succ steps ih =>
    rw [compress]
    split
    · exact ⟨h, rfl, fun _ _ ↦ rfl⟩
    · rename_i hparent
      obtain ⟨-, hsame, hroot⟩ := h.sameRoots_hang helement htop hparent
      have hup : partition.parentOf element < (partition.hang element top).size := by
        rw [size_hang]
        exact h.parentOf_lt element helement
      exact hsame.trans (ih hsame.ranked hup hroot)

theorem Ranked.sameRoots_locate (h : partition.Ranked) (helement : element < partition.size) :
    partition.SameRoots (partition.locate element).2 :=
  h.sameRoots_compress helement rfl partition.size

/-! ## Merging -/

/-- The representative with its rank one higher. -/
def raise (partition : Partition) (element : Nat) : Partition :=
  { partition with rank := partition.rank.setIfInBounds element (partition.rankOf element + 1) }

theorem rankOf_raise (h : partition.Ranked) (helement : element < partition.size) :
    (partition.raise element).rankOf other =
      if other = element then partition.rankOf element + 1 else partition.rankOf other := by
  have hbound : element < partition.rank.size := by rwa [h.size_rank]
  by_cases heq : other = element
  · subst heq
    simp [raise, rankOf, hbound]
  · simp [raise, rankOf, Ne.symm heq, heq]

theorem Ranked.raise (h : partition.Ranked) (helement : element < partition.size)
    (htop : partition.parentOf element = element) : (partition.raise element).Ranked where
  size_rank := by
    rw [Partition.raise, Array.size_setIfInBounds]
    exact h.size_rank
  parentOf_lt := h.parentOf_lt
  rankOf_lt other hother hparent := by
    change partition.parentOf other ≠ other at hparent
    change _ < (partition.raise element).rankOf (partition.parentOf other)
    have hrank := h.rankOf_lt other hother hparent
    rw [rankOf_raise h helement, rankOf_raise h helement]
    have hne : other ≠ element := fun heq ↦ hparent (heq ▸ htop)
    rw [if_neg hne]
    split
    · rename_i heq
      rw [heq] at hrank
      omega
    · exact hrank

theorem Reaches.raise (h : partition.Reaches element top) : (partition.raise other).Reaches element top := by
  induction h with
  | top htop => exact .top htop
  | up hparent _ ih => exact .up hparent ih

theorem Ranked.sameRoots_raise (h : partition.Ranked) (helement : element < partition.size)
    (htop : partition.parentOf element = element) : partition.SameRoots (partition.raise element) where
  ranked := h.raise helement htop
  size_eq := rfl
  root_eq _ hother := (h.reaches_root hother).raise.root_eq (h.raise helement htop) hother

/-- The classes of two elements are one now, with the given representative; the others are as before. -/
structure Joined (partition : Partition) (left right : Nat) (next : Partition) (top : Nat) : Prop where
  ranked : next.Ranked
  size_eq : next.size = partition.size
  top_eq : top = partition.root left ∨ top = partition.root right
  root_eq : ∀ element < partition.size, next.root element =
    if partition.root element = partition.root left ∨ partition.root element = partition.root right
    then top else partition.root element

theorem Joined.symm (h : partition.Joined left right next top) :
    partition.Joined right left next top where
  ranked := h.ranked
  size_eq := h.size_eq
  top_eq := h.top_eq.symm
  root_eq element helement := by
    rw [h.root_eq element helement]
    exact if_congr or_comm rfl rfl

theorem SameRoots.joined (h : partition.SameRoots next) (hleft : left < partition.size)
    (hright : right < partition.size) {last : Partition} (hlast : next.Joined left right last top) :
    partition.Joined left right last top where
  ranked := hlast.ranked
  size_eq := hlast.size_eq.trans h.size_eq
  top_eq := by
    have htop := hlast.top_eq
    rwa [h.root_eq left hleft, h.root_eq right hright] at htop
  root_eq element helement := by
    rw [hlast.root_eq element (h.size_eq ▸ helement), h.root_eq left hleft, h.root_eq right hright,
      h.root_eq element helement]

/-- One representative goes below another one of higher rank. -/
theorem Ranked.joined_hang (h : partition.Ranked) (hbelow : below < partition.size)
    (htarget : target < partition.size) (hown : partition.parentOf below = below)
    (htop : partition.parentOf target = target)
    (hrank : partition.rankOf below < partition.rankOf target) :
    partition.Joined below target (partition.hang below target) target := by
  have hne : target ≠ below := by
    rintro rfl
    exact lt_irrefl _ hrank
  have hranked := h.hang hbelow htarget hrank
  have hbelowRoot := h.root_of_parentOf_eq hbelow hown
  have htargetRoot := h.root_of_parentOf_eq htarget htop
  refine ⟨hranked, size_hang _ _ _, .inr htargetRoot.symm, fun element helement ↦ ?_⟩
  have hsize : element < (partition.hang below target).size := by rwa [size_hang]
  rw [hbelowRoot, htargetRoot]
  rcases (h.reaches_root helement).hang hbelow htop hne (.top hown) with
    ⟨hmoved, heq⟩ | ⟨hkept, hother⟩
  · rw [hmoved.root_eq hranked hsize, if_pos (.inl heq)]
  · rw [hkept.root_eq hranked hsize]
    split
    · rename_i heq
      exact heq.resolve_left hother
    · rfl

theorem Ranked.joined_link (h : partition.Ranked) (hleft : left < partition.size)
    (hright : right < partition.size) (hleftTop : partition.parentOf left = left)
    (hrightTop : partition.parentOf right = right) :
    partition.Joined left right (partition.link left right).2 (partition.link left right).1 := by
  have hleftRoot := h.root_of_parentOf_eq hleft hleftTop
  rw [link]
  split
  · rename_i heq
    subst heq
    refine ⟨h, rfl, .inl hleftRoot.symm, fun element _ ↦ ?_⟩
    split
    · rename_i hroot
      rw [hleftRoot, or_self] at hroot
      exact hroot
    · rfl
  · rename_i hne
    split
    · rename_i hrank
      exact h.joined_hang hleft hright hleftTop hrightTop hrank
    · split
      · rename_i hrank
        -- The rank can be raised before the other representative goes below.
        have hraised := h.sameRoots_raise hleft hleftTop
        refine hraised.joined hleft hright (hraised.ranked.joined_hang hright hleft hrightTop hleftTop
          ?_).symm
        rw [rankOf_raise h hleft, rankOf_raise h hleft, if_neg (Ne.symm hne), if_pos rfl, hrank]
        exact Nat.lt_succ_self _
      · exact (h.joined_hang hright hleft hrightTop hleftTop (by omega)).symm

/-- The partition with the paths of both elements shortened. -/
def located (partition : Partition) (left right : Nat) : Partition :=
  ((partition.locate left).2.locate right).2

theorem Ranked.sameRoots_located (h : partition.Ranked) (hleft : left < partition.size)
    (hright : right < partition.size) : partition.SameRoots (partition.located left right) := by
  have hfirst := h.sameRoots_locate hleft
  exact hfirst.trans (hfirst.ranked.sameRoots_locate (hfirst.size_eq ▸ hright))

/-- Merging links the representatives of the two elements. -/
theorem Ranked.unite_eq_link (h : partition.Ranked) (hleft : left < partition.size)
    (hright : right < partition.size) : partition.unite left right =
      (partition.located left right).link (partition.root left) (partition.root right) := by
  have hrightRoot : ((partition.locate left).2.locate right).1 = partition.root right :=
    (h.sameRoots_locate hleft).root_eq right hright
  rw [← hrightRoot]
  rfl

/-- Merging is exact: both classes have the answered representative, the others keep theirs. -/
theorem Ranked.joined_unite (h : partition.Ranked) (hleft : left < partition.size)
    (hright : right < partition.size) :
    partition.Joined left right (partition.unite left right).2 (partition.unite left right).1 := by
  have hboth := h.sameRoots_located hleft hright
  rw [h.unite_eq_link hleft hright]
  set located := partition.located left right
  have hleftSize : left < located.size := hboth.size_eq ▸ hleft
  have hrightSize : right < located.size := hboth.size_eq ▸ hright
  have hleftLocated := hboth.root_eq left hleft
  have hrightLocated := hboth.root_eq right hright
  apply hboth.joined hleft hright
  rw [← hleftLocated, ← hrightLocated]
  have hlink := hboth.ranked.joined_link (hboth.ranked.root_lt hleftSize)
    (hboth.ranked.root_lt hrightSize) (hboth.ranked.parentOf_root hleftSize)
    (hboth.ranked.parentOf_root hrightSize)
  have hfixed {element : Nat} (helement : element < located.size) :
      located.root (located.root element) = located.root element :=
    hboth.ranked.root_of_parentOf_eq (hboth.ranked.root_lt helement)
      (hboth.ranked.parentOf_root helement)
  refine ⟨hlink.ranked, hlink.size_eq, ?_, fun element helement ↦ ?_⟩
  · have htop := hlink.top_eq
    rwa [hfixed hleftSize, hfixed hrightSize] at htop
  · rw [hlink.root_eq element helement, hfixed hleftSize, hfixed hrightSize]

/-! ## Merging many -/

/-- Elements of one class are in one class still. -/
structure Coarser (partition next : Partition) : Prop where
  ranked : next.Ranked
  size_eq : next.size = partition.size
  root_eq : ∀ element < partition.size, ∀ other < partition.size,
    partition.root element = partition.root other → next.root element = next.root other

theorem Ranked.coarser (h : partition.Ranked) : partition.Coarser partition :=
  ⟨h, rfl, fun _ _ _ _ heq ↦ heq⟩

theorem Coarser.trans {last : Partition} (h : partition.Coarser next) (hlast : next.Coarser last) :
    partition.Coarser last where
  ranked := hlast.ranked
  size_eq := hlast.size_eq.trans h.size_eq
  root_eq element helement other hother heq :=
    hlast.root_eq element (h.size_eq ▸ helement) other (h.size_eq ▸ hother)
      (h.root_eq element helement other hother heq)

theorem Joined.coarser (h : partition.Joined left right next top) : partition.Coarser next where
  ranked := h.ranked
  size_eq := h.size_eq
  root_eq element helement other hother heq := by
    rw [h.root_eq element helement, h.root_eq other hother, heq]

theorem Joined.root_left_eq_right (h : partition.Joined left right next top)
    (hleft : left < partition.size) (hright : right < partition.size) :
    next.root left = next.root right := by
  rw [h.root_eq left hleft, h.root_eq right hright, if_pos (.inl rfl), if_pos (.inr rfl)]

theorem uniteAll_cons_cons {first : Nat} {others : List Nat} :
    partition.uniteAll (first :: other :: others) =
      (partition.unite first other).2.uniteAll (first :: others) := rfl

theorem Ranked.coarser_uniteAll_cons (h : partition.Ranked) {first : Nat} {others : List Nat}
    (hfirst : first < partition.size) (hothers : ∀ element ∈ others, element < partition.size) :
    partition.Coarser (partition.uniteAll (first :: others)) ∧ ∀ element ∈ others,
      (partition.uniteAll (first :: others)).root element =
        (partition.uniteAll (first :: others)).root first := by
  induction others generalizing partition with
  | nil => exact ⟨h.coarser, by simp⟩
  | cons other rest ih =>
    have hother := hothers other (by simp)
    have hunited := h.joined_unite hfirst hother
    have hsize := hunited.size_eq
    rw [uniteAll_cons_cons]
    obtain ⟨hcoarser, hrest⟩ := ih hunited.ranked (hsize ▸ hfirst)
      fun element hmem ↦ hsize ▸ hothers element (by simp [hmem])
    refine ⟨hunited.coarser.trans hcoarser, fun element hmem ↦ ?_⟩
    rcases List.mem_cons.mp hmem with rfl | hmem
    · exact hcoarser.root_eq _ (hsize ▸ hother) _ (hsize ▸ hfirst)
        (hunited.root_left_eq_right hfirst hother).symm
    · exact hrest element hmem

/-- All of the elements are in one class afterwards. -/
theorem Ranked.coarser_uniteAll (h : partition.Ranked) {elements : List Nat}
    (helements : ∀ element ∈ elements, element < partition.size) :
    partition.Coarser (partition.uniteAll elements) ∧ ∀ element ∈ elements, ∀ other ∈ elements,
      (partition.uniteAll elements).root element = (partition.uniteAll elements).root other := by
  cases elements with
  | nil => exact ⟨h.coarser, by simp⟩
  | cons first others =>
    obtain ⟨hcoarser, hothers⟩ := h.coarser_uniteAll_cons (helements first (by simp))
      fun element (hmem : element ∈ others) ↦ helements element (by simp [hmem])
    have hall : ∀ element ∈ first :: others, (partition.uniteAll (first :: others)).root element =
        (partition.uniteAll (first :: others)).root first := fun element hmem ↦ by
      rcases List.mem_cons.mp hmem with rfl | hmem
      · rfl
      · exact hothers element hmem
    exact ⟨hcoarser, fun element hmem other hother ↦ (hall element hmem).trans (hall other hother).symm⟩

/-! ## Merging no more than that -/

section Within

variable {related : Nat → Nat → Prop}

/-- Elements of one class are related. -/
def Within (partition : Partition) (related : Nat → Nat → Prop) : Prop :=
  ∀ element < partition.size, ∀ other < partition.size,
    partition.root element = partition.root other → related element other

theorem within_singletons (hrelated : Equivalence related) (size : Nat) :
    (singletons size).Within related := by
  intro element helement other hother heq
  have hroot {element : Nat} (helement : element < (singletons size).size) :
      (singletons size).root element = element :=
    (ranked_singletons size).root_of_parentOf_eq helement (parentOf_singletons size element)
  rw [hroot helement, hroot hother] at heq
  exact heq ▸ hrelated.refl element

theorem Joined.within (h : partition.Joined left right next top) (hleft : left < partition.size)
    (hright : right < partition.size) (hrelated : Equivalence related)
    (hwithin : partition.Within related) (hmerged : related left right) : next.Within related := by
  have hjoined {element : Nat} (helement : element < partition.size)
      (hclass : partition.root element = partition.root left ∨
        partition.root element = partition.root right) : related element left := by
    rcases hclass with hclass | hclass
    · exact hwithin element helement left hleft hclass
    · exact hrelated.trans (hwithin element helement right hright hclass) (hrelated.symm hmerged)
  intro element helement other hother heq
  rw [h.size_eq] at helement hother
  rw [h.root_eq element helement, h.root_eq other hother] at heq
  split at heq
  · rename_i hclass
    split at heq
    · rename_i hotherClass
      exact hrelated.trans (hjoined helement hclass) (hrelated.symm (hjoined hother hotherClass))
    · rename_i hotherClass
      exact absurd (h.top_eq.imp heq.symm.trans heq.symm.trans) hotherClass
  · rename_i hclass
    split at heq
    · exact absurd (h.top_eq.imp heq.trans heq.trans) hclass
    · exact hwithin element helement other hother heq

theorem Ranked.within_uniteAll_cons (h : partition.Ranked) {first : Nat} {others : List Nat}
    (hfirst : first < partition.size) (hothers : ∀ element ∈ others, element < partition.size)
    (hrelated : Equivalence related) (hwithin : partition.Within related)
    (hmerged : ∀ element ∈ others, related first element) :
    (partition.uniteAll (first :: others)).Within related := by
  induction others generalizing partition with
  | nil => exact hwithin
  | cons other rest ih =>
    have hother := hothers other List.mem_cons_self
    have hunited := h.joined_unite hfirst hother
    rw [uniteAll_cons_cons]
    apply ih hunited.ranked
    · exact hunited.size_eq ▸ hfirst
    · exact fun element hmem ↦ hunited.size_eq ▸ hothers element (List.mem_cons_of_mem other hmem)
    · exact hunited.within hfirst hother hrelated hwithin (hmerged other List.mem_cons_self)
    · exact fun element hmem ↦ hmerged element (List.mem_cons_of_mem other hmem)

/-- Merging related elements puts no others into one class. -/
theorem Ranked.within_uniteAll (h : partition.Ranked) {elements : List Nat}
    (helements : ∀ element ∈ elements, element < partition.size) (hrelated : Equivalence related)
    (hwithin : partition.Within related)
    (hmerged : ∀ element ∈ elements, ∀ other ∈ elements, related element other) :
    (partition.uniteAll elements).Within related := by
  cases elements with
  | nil => exact hwithin
  | cons first others =>
    exact h.within_uniteAll_cons (helements first List.mem_cons_self)
      (fun element hmem ↦ helements element (List.mem_cons_of_mem first hmem)) hrelated hwithin
      fun element hmem ↦ hmerged first List.mem_cons_self element (List.mem_cons_of_mem first hmem)

end Within

end SetCover.Partition

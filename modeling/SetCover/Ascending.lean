/-!
# Ascending lists

Adjacency lists and the lines that a line meets are lists of numbers in strictly ascending order.
On such lists intersection and inclusion take one pass over both lists.
-/

namespace SetCover.Ascending

def common : List Nat → List Nat → List Nat
  | [], _ => []
  | element :: rest, others =>
    match others.dropWhile (· < element) with
    | [] => []
    | other :: others =>
      if other = element then element :: common rest others else common rest (other :: others)

def within : List Nat → List Nat → Bool
  | [], _ => true
  | element :: rest, others =>
    match others.dropWhile (· < element) with
    | [] => false
    | other :: others => other == element && within rest others

/-- A sorted list with every element kept once. -/
def distinct : List Nat → List Nat
  | [] => []
  | element :: rest =>
    match distinct rest with
    | [] => [element]
    | next :: others => if element = next then next :: others else element :: next :: others

/-- The elements of a list in ascending order, each once. -/
def ofList (elements : List Nat) : List Nat :=
  distinct (elements.mergeSort (· ≤ ·))

/-- The first element that is not greater than the one before it. -/
def firstDescent? : List Nat → Option Nat
  | first :: second :: rest => if first < second then firstDescent? (second :: rest) else some second
  | _ => none

/-- The elements dropped in front of a greater element are exactly those that are too small. -/
theorem mem_dropWhile_lt {element other : Nat} {others : List Nat}
    (hsorted : others.Pairwise (· < ·)) :
    other ∈ others.dropWhile (· < element) ↔ other ∈ others ∧ element ≤ other := by
  induction others with
  | nil => simp
  | cons head tail ih =>
    obtain ⟨hhead, htail⟩ := List.pairwise_cons.mp hsorted
    by_cases hlt : head < element
    · simp only [List.dropWhile_cons, hlt, decide_true, if_true, ih htail, List.mem_cons]
      constructor
      · rintro ⟨hmem, hle⟩
        exact ⟨Or.inr hmem, hle⟩
      · rintro ⟨rfl | hmem, hle⟩
        · omega
        · exact ⟨hmem, hle⟩
    · simp only [List.dropWhile_cons, hlt, decide_false, Bool.false_eq_true, if_false, List.mem_cons]
      constructor
      · rintro (rfl | hmem)
        · exact ⟨Or.inl rfl, by omega⟩
        · exact ⟨Or.inr hmem, by have := hhead _ hmem; omega⟩
      · exact fun h ↦ h.1

theorem mem_common {element : Nat} {left right : List Nat}
    (hleft : left.Pairwise (· < ·)) (hright : right.Pairwise (· < ·)) :
    element ∈ common left right ↔ element ∈ left ∧ element ∈ right := by
  induction left generalizing right with
  | nil => simp [common]
  | cons head tail ih =>
    obtain ⟨hhead, htail⟩ := List.pairwise_cons.mp hleft
    have hkept : ∀ x, x ∈ right.dropWhile (· < head) ↔ x ∈ right ∧ head ≤ x :=
      fun x ↦ mem_dropWhile_lt hright
    have hdropped : (right.dropWhile (· < head)).Pairwise (· < ·) :=
      hright.sublist (List.dropWhile_sublist _)
    unfold common
    split
    · rename_i hnil
      simp only [hnil, List.not_mem_nil, false_iff, not_and, Nat.not_le] at hkept
      simp only [List.not_mem_nil, List.mem_cons, false_iff, not_and]
      rintro (rfl | hmem) hin
      · exact absurd (hkept _ hin) (Nat.lt_irrefl _)
      · exact absurd (hkept _ hin) (Nat.not_lt_of_lt (hhead _ hmem))
    · rename_i other others hcons
      rw [hcons] at hkept hdropped
      obtain ⟨hother, hothers⟩ := List.pairwise_cons.mp hdropped
      split
      · rename_i heq
        subst heq
        rw [List.mem_cons, ih htail hothers, List.mem_cons]
        constructor
        · rintro (rfl | ⟨hmem, hin⟩)
          · exact ⟨Or.inl rfl, ((hkept _).mp (by simp)).1⟩
          · exact ⟨Or.inr hmem, ((hkept _).mp (by simp [hin])).1⟩
        · rintro ⟨rfl | hmem, hin⟩
          · exact Or.inl rfl
          · refine Or.inr ⟨hmem, ?_⟩
            have hlt := hhead _ hmem
            rcases List.mem_cons.mp ((hkept _).mpr ⟨hin, Nat.le_of_lt hlt⟩) with rfl | h
            · omega
            · exact h
      · rename_i hne
        rw [ih htail hdropped, List.mem_cons (a := element) (b := head)]
        constructor
        · rintro ⟨hmem, hin⟩
          exact ⟨Or.inr hmem, ((hkept _).mp hin).1⟩
        · rintro ⟨rfl | hmem, hin⟩
          · have hmem := (hkept _).mpr ⟨hin, Nat.le_refl _⟩
            rcases List.mem_cons.mp hmem with h | h
            · exact absurd h.symm hne
            · have := hother _ h
              have := ((hkept other).mp (by simp)).2
              omega
          · exact ⟨hmem, (hkept _).mpr ⟨hin, Nat.le_of_lt (hhead _ hmem)⟩⟩

theorem within_iff {left right : List Nat}
    (hleft : left.Pairwise (· < ·)) (hright : right.Pairwise (· < ·)) :
    within left right = true ↔ ∀ element ∈ left, element ∈ right := by
  induction left generalizing right with
  | nil => simp [within]
  | cons head tail ih =>
    obtain ⟨hhead, htail⟩ := List.pairwise_cons.mp hleft
    have hkept : ∀ x, x ∈ right.dropWhile (· < head) ↔ x ∈ right ∧ head ≤ x :=
      fun x ↦ mem_dropWhile_lt hright
    have hdropped : (right.dropWhile (· < head)).Pairwise (· < ·) :=
      hright.sublist (List.dropWhile_sublist _)
    unfold within
    split
    · rename_i hnil
      simp only [hnil, List.not_mem_nil, false_iff, not_and, Nat.not_le] at hkept
      simp only [Bool.false_eq_true, false_iff]
      intro hall
      exact absurd (hkept head (hall head (by simp))) (Nat.lt_irrefl _)
    · rename_i other others hcons
      rw [hcons] at hkept hdropped
      obtain ⟨hother, hothers⟩ := List.pairwise_cons.mp hdropped
      have hle := ((hkept other).mp (by simp)).2
      rw [Bool.and_eq_true, beq_iff_eq, ih htail hothers]
      constructor
      · rintro ⟨rfl, hall⟩ element hmem
        rcases List.mem_cons.mp hmem with rfl | hmem
        · exact ((hkept _).mp (by simp)).1
        · exact ((hkept _).mp (by simp [hall _ hmem])).1
      · intro hall
        have heq : other = head := by
          have hmem := (hkept head).mpr ⟨hall head (by simp), Nat.le_refl _⟩
          rcases List.mem_cons.mp hmem with h | h
          · exact h.symm
          · have := hother _ h
            omega
        refine ⟨heq, fun element hmem ↦ ?_⟩
        have hlt := hhead _ hmem
        have hin := (hkept element).mpr ⟨hall element (by simp [hmem]), Nat.le_of_lt hlt⟩
        rcases List.mem_cons.mp hin with rfl | h
        · omega
        · exact h

@[simp]
theorem mem_distinct {element : Nat} {elements : List Nat} :
    element ∈ distinct elements ↔ element ∈ elements := by
  induction elements with
  | nil => simp [distinct]
  | cons head tail ih =>
    unfold distinct
    rw [List.mem_cons, ← ih]
    split
    · rename_i hnil
      simp [hnil]
    · rename_i next others hcons
      rw [hcons]
      split
      · rename_i heq
        simp [heq]
      · simp

theorem pairwise_distinct {elements : List Nat} (hsorted : elements.Pairwise (· ≤ ·)) :
    (distinct elements).Pairwise (· < ·) := by
  induction elements with
  | nil => simp [distinct]
  | cons head tail ih =>
    obtain ⟨hhead, htail⟩ := List.pairwise_cons.mp hsorted
    have hrest := ih htail
    unfold distinct
    split
    · simp
    · rename_i next others hcons
      rw [hcons] at hrest
      split
      · exact hrest
      · rename_i hne
        refine List.pairwise_cons.mpr ⟨fun element hmem ↦ ?_, hrest⟩
        have hnext : next ∈ tail := mem_distinct.mp (by simp [hcons])
        have hle := hhead _ hnext
        rcases List.mem_cons.mp hmem with rfl | hmem
        · omega
        · have := (List.pairwise_cons.mp hrest).1 _ hmem
          omega

theorem mem_ofList {element : Nat} {elements : List Nat} :
    element ∈ ofList elements ↔ element ∈ elements := by
  simp [ofList]

theorem pairwise_ofList (elements : List Nat) : (ofList elements).Pairwise (· < ·) := by
  refine pairwise_distinct ?_
  have hsorted : (elements.mergeSort (· ≤ ·)).Pairwise
      (fun left right ↦ decide (left ≤ right) = true) :=
    List.pairwise_mergeSort
      (fun _ _ _ hab hbc ↦ by simp only [decide_eq_true_eq] at *; omega)
      (fun _ _ ↦ by simp only [Bool.or_eq_true, decide_eq_true_eq]; omega) elements
  simpa using hsorted

theorem pairwise_common {left right : List Nat} (hleft : left.Pairwise (· < ·))
    (hright : right.Pairwise (· < ·)) : (common left right).Pairwise (· < ·) := by
  induction left generalizing right with
  | nil => simp [common]
  | cons head tail ih =>
    obtain ⟨hhead, htail⟩ := List.pairwise_cons.mp hleft
    have hdropped : (right.dropWhile (· < head)).Pairwise (· < ·) :=
      hright.sublist (List.dropWhile_sublist _)
    unfold common
    split
    · simp
    · rename_i other others hcons
      rw [hcons] at hdropped
      have hothers := (List.pairwise_cons.mp hdropped).2
      split
      · refine List.pairwise_cons.mpr ⟨fun element hmem ↦ ?_, ih htail hothers⟩
        exact hhead _ ((mem_common htail hothers).mp hmem).1
      · exact ih htail hdropped

end SetCover.Ascending

import Mathlib.Logic.Relation
import SetCover.Proofs.Calls
import SetCover.Proofs.Partition

/-!
# Classes that calls have merged

Elements are looked up and classes merged in any order, with refused calls in between.  Two elements
have one representative if and only if a chain of merged pairs links them.  Looking an element up
shortens its path, also when the other element of a merger is refused, but changes no representative.
-/

namespace SetCover.Partition

open Relation

variable {partition next : Partition} {size element left right top : Nat}

/-! ## Single calls -/

theorem size_compress (root steps element : Nat) (partition : Partition) :
    (compress root steps element partition).size = partition.size := by
  induction steps generalizing element partition with
  | zero => rfl
  | succ steps ih =>
    rw [compress]
    split
    · rfl
    · rw [ih, size_hang]

theorem find_of_lt (helement : element < partition.size) :
    find element partition = .ok (partition.root element) (partition.locate element).2 := by
  have hnot : ¬partition.size ≤ element := Nat.not_le.mpr helement
  simp only [find, requireElement, Calls.bind_apply, Calls.get_apply, if_neg hnot]
  rfl

theorem find_of_le (helement : partition.size ≤ element) :
    find element partition = .error (.elementOutOfRange element partition.size) partition := by
  simp only [find, requireElement, Calls.bind_apply, Calls.get_apply, if_pos helement]
  rfl

theorem merge_of_lt (hleft : left < partition.size) (hright : right < partition.size) :
    merge left right partition =
      .ok (partition.unite left right).1 (partition.unite left right).2 := by
  have hlocated : right < (partition.locate left).2.size := by
    rwa [locate, size_compress]
  rw [merge, Calls.bind_ok (find_of_lt hleft), Calls.bind_ok (find_of_lt hlocated)]
  rfl

theorem merge_of_le_left (hleft : partition.size ≤ left) :
    merge left right partition = .error (.elementOutOfRange left partition.size) partition :=
  Calls.bind_error (find_of_le hleft)

/-- The first element has been looked up when the second one is refused. -/
theorem merge_of_le_right (hleft : left < partition.size) (hright : partition.size ≤ right) :
    merge left right partition =
      .error (.elementOutOfRange right partition.size) (partition.locate left).2 := by
  have hsize : (partition.locate left).2.size = partition.size := size_compress _ _ _ _
  have hrefused := find_of_le (hsize.trans_le hright)
  rw [hsize] at hrefused
  exact (Calls.bind_ok (find_of_lt hleft)).trans (Calls.bind_error hrefused)

theorem Ranked.sameRoots (h : partition.Ranked) : partition.SameRoots partition :=
  ⟨h, rfl, fun _ _ ↦ rfl⟩

/-- A merger with an element from outside is refused, and the classes stay. -/
theorem Ranked.merge_refused (h : partition.Ranked)
    (houtside : partition.size ≤ left ∨ partition.size ≤ right) :
    ∃ fault next, merge left right partition = .error fault next ∧ partition.SameRoots next := by
  rcases Nat.lt_or_ge left partition.size with hleft | hleft
  · have hright := houtside.resolve_left (Nat.not_le.mpr hleft)
    exact ⟨_, _, merge_of_le_right hleft hright, h.sameRoots_locate hleft⟩
  · exact ⟨_, _, merge_of_le_left hleft, h.sameRoots⟩

/-! ## Requests -/

/-- What can be asked of a partition. -/
inductive Request where
  | find (element : Nat)
  | merge (left right : Nat)

/-- The call that a request makes. -/
def Request.call : Request → Call Nat
  | find element => Partition.find element
  | merge left right => Partition.merge left right

/-- The partition after a request, carried out or refused. -/
def Request.after (request : Request) (partition : Partition) : Partition :=
  Calls.stateAfter request.call partition

/-- The partition after several requests, each carried out or refused. -/
def afterAll (requests : List Request) (partition : Partition) : Partition :=
  requests.foldl (fun partition request ↦ request.after partition) partition

/-- A request merges two classes, shortens the path of one element or does nothing.  A merger that is
refused has an element from outside. -/
theorem Request.after_cases (request : Request) (partition : Partition) :
    (∃ left right, request = .merge left right ∧ left < partition.size ∧ right < partition.size ∧
      request.after partition = (partition.unite left right).2) ∨
    (∀ left right, request = .merge left right →
      partition.size ≤ left ∨ partition.size ≤ right) ∧
    (request.after partition = partition ∨ ∃ element < partition.size,
      request.after partition = (partition.locate element).2) := by
  cases request with
  | find element =>
    refine .inr ⟨fun _ _ heq ↦ (nomatch heq), ?_⟩
    rw [Request.after, Request.call, Calls.stateAfter]
    rcases Nat.lt_or_ge element partition.size with helement | helement
    · rw [find_of_lt helement]
      exact .inr ⟨element, helement, rfl⟩
    · rw [find_of_le helement]
      exact .inl rfl
  | merge left right =>
    rw [Request.after, Request.call, Calls.stateAfter]
    rcases Nat.lt_or_ge left partition.size with hleft | hleft
    · rcases Nat.lt_or_ge right partition.size with hright | hright
      · rw [merge_of_lt hleft hright]
        exact .inl ⟨left, right, rfl, hleft, hright, rfl⟩
      · rw [merge_of_le_right hleft hright]
        refine .inr ⟨fun first second heq ↦ .inr ?_, .inr ⟨left, hleft, rfl⟩⟩
        rwa [← (Request.merge.inj heq).2]
    · rw [merge_of_le_left hleft]
      refine .inr ⟨fun first second heq ↦ .inl ?_, .inl rfl⟩
      rwa [← (Request.merge.inj heq).1]

/-- The elements were merged with each other. -/
def Merged (size : Nat) (requests : List Request) (left right : Nat) : Prop :=
  .merge left right ∈ requests ∧ left < size ∧ right < size

/-- The elements that have one representative are those that chains of merged pairs link. -/
structure Reflects (partition : Partition) (size : Nat) (requests : List Request) : Prop where
  ranked : partition.Ranked
  size_eq : partition.size = size
  root_eq_of_merged : ∀ left right, Merged size requests left right →
    partition.root left = partition.root right
  within : partition.Within (EqvGen (Merged size requests))

theorem reflects_singletons (size : Nat) : (singletons size).Reflects size [] where
  ranked := ranked_singletons size
  size_eq := size_singletons size
  root_eq_of_merged left right hmerged := by cases hmerged.1
  within := within_singletons (EqvGen.is_equivalence _) size

namespace Reflects

variable {requests : List Request} {request : Request}

theorem root_eq_of_eqvGen (h : partition.Reflects size requests)
    (hlinked : EqvGen (Merged size requests) left right) :
    partition.root left = partition.root right := by
  induction hlinked with
  | rel left right hmerged => exact h.root_eq_of_merged left right hmerged
  | refl => rfl
  | symm _ _ _ ih => exact ih.symm
  | trans _ _ _ _ _ ihLeft ihRight => exact ihLeft.trans ihRight

theorem root_eq_iff (h : partition.Reflects size requests) (hleft : left < size)
    (hright : right < size) :
    partition.root left = partition.root right ↔ EqvGen (Merged size requests) left right := by
  refine ⟨h.within left ?_ right ?_, h.root_eq_of_eqvGen⟩
  · rwa [h.size_eq]
  · rwa [h.size_eq]

/-- A request that merges nothing leaves the representatives. -/
theorem of_sameRoots (h : partition.Reflects size requests) (hsame : partition.SameRoots next)
    (hmerged : ∀ left right, request = .merge left right → size ≤ left ∨ size ≤ right) :
    next.Reflects size (requests ++ [request]) := by
  have hpairs : Merged size (requests ++ [request]) = Merged size requests := by
    funext left right
    refine propext (and_congr_left fun ⟨hleft, hright⟩ ↦ ?_)
    rw [List.mem_append, List.mem_singleton, or_iff_left]
    intro hrequest
    rcases hmerged left right hrequest.symm with hout | hout
    · exact Nat.not_le.mpr hleft hout
    · exact Nat.not_le.mpr hright hout
  have hsize : next.size = size := hsame.size_eq.trans h.size_eq
  have hroot {element : Nat} (helement : element < size) :
      next.root element = partition.root element :=
    hsame.root_eq element (helement.trans_eq h.size_eq.symm)
  refine ⟨hsame.ranked, hsize, fun left right hboth ↦ ?_, fun left hleft right hright heq ↦ ?_⟩
  · rw [hpairs] at hboth
    rw [hroot hboth.2.1, hroot hboth.2.2]
    exact h.root_eq_of_merged left right hboth
  · rw [hsize] at hleft hright
    rw [hroot hleft, hroot hright] at heq
    rw [hpairs]
    exact (h.root_eq_iff hleft hright).mp heq

theorem of_joined (h : partition.Reflects size requests) (hleft : left < size) (hright : right < size)
    (hjoined : partition.Joined left right next top) :
    next.Reflects size (requests ++ [.merge left right]) := by
  have hbefore : ∀ first second, Merged size requests first second →
      Merged size (requests ++ [.merge left right]) first second := fun first second hmerged ↦
    ⟨List.mem_append_left _ hmerged.1, hmerged.2⟩
  have hnew : Merged size (requests ++ [.merge left right]) left right :=
    ⟨List.mem_append_right _ List.mem_cons_self, hleft, hright⟩
  have hleftSize : left < partition.size := hleft.trans_eq h.size_eq.symm
  have hrightSize : right < partition.size := hright.trans_eq h.size_eq.symm
  refine ⟨hjoined.ranked, hjoined.size_eq.trans h.size_eq, fun first second hmerged ↦ ?_, ?_⟩
  · obtain ⟨hrequest, hfirst, hsecond⟩ := hmerged
    rcases List.mem_append.mp hrequest with hold | hlast
    · refine hjoined.coarser.root_eq first ?_ second ?_
        (h.root_eq_of_merged first second ⟨hold, hfirst, hsecond⟩)
      · rwa [h.size_eq]
      · rwa [h.size_eq]
    · obtain ⟨rfl, rfl⟩ := Request.merge.inj (List.mem_singleton.mp hlast)
      exact hjoined.root_left_eq_right hleftSize hrightSize
  · exact hjoined.within hleftSize hrightSize (EqvGen.is_equivalence _)
      (fun first hfirst second hsecond heq ↦ (h.within first hfirst second hsecond heq).mono hbefore)
      (.rel left right hnew)

/-- What one request changes. -/
theorem after (h : partition.Reflects size requests) (request : Request) :
    (request.after partition).Reflects size (requests ++ [request]) := by
  obtain rfl := h.size_eq
  rcases request.after_cases partition with
    ⟨left, right, rfl, hleft, hright, hafter⟩ | ⟨houtside, hafter | ⟨element, helement, hafter⟩⟩
  · rw [hafter]
    exact h.of_joined hleft hright (h.ranked.joined_unite hleft hright)
  · rw [hafter]
    exact h.of_sameRoots h.ranked.sameRoots houtside
  · rw [hafter]
    exact h.of_sameRoots (h.ranked.sameRoots_locate helement) houtside

end Reflects

/-- What requests have made of a partition. -/
theorem reflects_afterAll (size : Nat) (requests : List Request) :
    (afterAll requests (singletons size)).Reflects size requests := by
  induction requests using List.reverseRecOn with
  | nil => exact reflects_singletons size
  | append_singleton requests request ih =>
    rw [afterAll, List.foldl_append]
    exact ih.after request

/-! ## Representatives -/

/-- Looking the element up answers with its representative. -/
def Represents (partition : Partition) (top element : Nat) : Prop :=
  ∃ next, find element partition = .ok top next

theorem represents_iff : partition.Represents top element ↔
    element < partition.size ∧ partition.root element = top := by
  rcases Nat.lt_or_ge element partition.size with helement | helement
  · rw [Represents, find_of_lt helement, and_iff_right helement]
    exact ⟨fun ⟨_, heq⟩ ↦ (EStateM.Result.ok.inj heq).1, fun heq ↦ ⟨_, by rw [heq]⟩⟩
  · rw [Represents, find_of_le helement]
    refine iff_of_false (fun ⟨_, heq⟩ ↦ ?_) fun hinside ↦ Nat.not_le.mpr hinside.1 helement
    cases heq

theorem SameRoots.represents_iff (h : partition.SameRoots next) :
    next.Represents top element ↔ partition.Represents top element := by
  rw [Partition.represents_iff, Partition.represents_iff, h.size_eq]
  exact and_congr_right fun helement ↦ by rw [h.root_eq element helement]

/-- What calls answer after any requests.  Two elements are related if a chain of merged pairs links
them.  An element is related to its representative, and two elements have one representative if and only
if they are related.  Looking an element up changes no representative.  A merger answers with one of the
representatives of its two elements, that of the first one if they were related already; it represents
all that is related to one of the two, and nothing else gets another representative.  What is refused
changes none either. -/
theorem represents_afterAll (size : Nat) (requests : List Request) :
    let partition := afterAll requests (singletons size)
    let related := EqvGen (Merged size requests)
    (∀ element < size, ∃ top next, find element partition = .ok top next ∧ top < size ∧
      related element top ∧
      ∀ other answer, next.Represents answer other ↔ partition.Represents answer other) ∧
    (∀ left < size, ∀ right < size,
      (∃ top, partition.Represents top left ∧ partition.Represents top right) ↔
        related left right) ∧
    (∀ left < size, ∀ right < size, ∃ leftTop rightTop top next,
      partition.Represents leftTop left ∧ partition.Represents rightTop right ∧
      merge left right partition = .ok top next ∧ (top = leftTop ∨ top = rightTop) ∧
      (related left right → top = leftTop) ∧
      (∀ element < size, related element left ∨ related element right →
        next.Represents top element) ∧
      ∀ element, ¬(related element left ∨ related element right) →
        ∀ answer, next.Represents answer element ↔ partition.Represents answer element) ∧
    (∀ element, size ≤ element →
      find element partition = .error (.elementOutOfRange element size) partition) ∧
    ∀ left right, size ≤ left ∨ size ≤ right → ∃ fault next,
      merge left right partition = .error fault next ∧
        ∀ element answer, next.Represents answer element ↔ partition.Represents answer element := by
  intro partition related
  have h : partition.Reflects size requests := reflects_afterAll size requests
  clear_value partition
  obtain rfl : partition.size = size := h.size_eq
  have hrelated {element other : Nat} (helement : element < partition.size)
      (hother : other < partition.size) :
      partition.root element = partition.root other ↔ related element other :=
    h.root_eq_iff helement hother
  have hself {element : Nat} (helement : element < partition.size) :
      partition.Represents (partition.root element) element :=
    represents_iff.mpr ⟨helement, rfl⟩
  refine ⟨fun element helement ↦ ?_, fun left hleft right hright ↦ ?_,
    fun left hleft right hright ↦ ?_, fun element ↦ find_of_le, fun left right houtside ↦ ?_⟩
  · have hroot := h.ranked.root_lt helement
    have hfixed := h.ranked.root_of_parentOf_eq hroot (h.ranked.parentOf_root helement)
    exact ⟨_, _, find_of_lt helement, hroot, (hrelated helement hroot).mp hfixed.symm,
      fun other answer ↦ (h.ranked.sameRoots_locate helement).represents_iff⟩
  · rw [← hrelated hleft hright]
    constructor
    · rintro ⟨top, hleftTop, hrightTop⟩
      exact (represents_iff.mp hleftTop).2.trans (represents_iff.mp hrightTop).2.symm
    · exact fun heq ↦ ⟨_, hself hleft, heq ▸ hself hright⟩
  · have hjoined := h.ranked.joined_unite hleft hright
    have hclass {element : Nat} (helement : element < partition.size) :
        (partition.root element = partition.root left ∨
          partition.root element = partition.root right) ↔
        (related element left ∨ related element right) := by
      rw [hrelated helement hleft, hrelated helement hright]
    refine ⟨_, _, _, _, hself hleft, hself hright, merge_of_lt hleft hright, hjoined.top_eq,
      fun hboth ↦ ?_, fun element helement hjoin ↦ ?_, fun element hapart answer ↦ ?_⟩
    · exact hjoined.top_eq.elim id fun htop ↦ htop.trans ((hrelated hleft hright).mpr hboth).symm
    · have hroot := hjoined.root_eq element helement
      rw [if_pos ((hclass helement).mpr hjoin)] at hroot
      exact represents_iff.mpr ⟨helement.trans_eq hjoined.size_eq.symm, hroot⟩
    · rw [represents_iff, represents_iff, hjoined.size_eq]
      refine and_congr_right fun helement ↦ ?_
      rw [hjoined.root_eq element helement, if_neg ((hclass helement).not.mpr hapart)]
  · obtain ⟨fault, next, hmerge, hsame⟩ := h.ranked.merge_refused houtside
    exact ⟨fault, next, hmerge, fun element answer ↦ hsame.represents_iff⟩

end SetCover.Partition

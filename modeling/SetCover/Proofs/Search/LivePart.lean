import SetCover.Proofs.Likeness
import SetCover.Proofs.Search.Abreast
import SetCover.Proofs.Search.Rules

/-!
# The search sees only the live part of a table

On two tables that look alike every rule, the lower bound and the whole search go abreast: they answer
the same, count the same and leave tables behind that look alike again.  So nothing depends on the order
in which cells were inserted, on the slots that they lie in, on what is pending on the history, or on
what deleted lines still hold.
-/

namespace SetCover.Workbench

open SetCover.Matrix

variable {κ α β γ : Type} [Cost κ] {first second : Matrix κ} {line : Line} {row column : Nat}

/-! ## Deletions and choices -/

theorem abreast_delete (h : Alike first second) (hactive : first.isActive line = true) :
    Abreast (delete line) (delete line) first second fun _ left right ↦
      left = first.deleted line ∧ right = second.deleted line :=
  .inl ⟨id, (), _, _, .delete h.linked.1 hactive,
    .delete h.linked.2 (h.isActive_eq line ▸ hactive), rfl, rfl⟩

theorem abreast_select (h : Alike first second)
    (hactive : first.isActive (.column column) = true) :
    Abreast (select column) (select column) first second fun _ left right ↦
      left = first.selected column ∧ right = second.selected column :=
  .inl ⟨id, (), _, _, .select h.linked.1 h.settled.1 hactive,
    .select h.linked.2 h.settled.2 (h.isActive_eq _ ▸ hactive), rfl, rfl⟩

/-! ## The rules -/

/-- The call goes abreast on tables that look alike and leaves such tables behind. -/
def KeepsAlike (work : Work κ α) : Prop :=
  ∀ {first second : Matrix κ}, Alike first second →
    Abreast work work first second fun _ left right ↦ Alike left right

theorem keepsAlike_foldlM {step : γ → Work κ α} (h : ∀ element, KeepsAlike (step element))
    (combine : β → α → β) (elements : List γ) (value : β) : KeepsAlike
      (elements.foldlM (fun value element ↦ return combine value (← step element)) value) := by
  intro first second hstart
  apply Abreast.foldlM (fun _ left right ↦ Alike left right) _ hstart
  intro element _ value left right halike
  exact (h element halike).bind fun _ _ _ hnext ↦ .pure hnext

theorem keepsAlike_ite {work other : Work κ α} {condition : Prop} [Decidable condition]
    (h : KeepsAlike work) (hother : KeepsAlike other) :
    KeepsAlike (if condition then work else other) :=
  fun halike ↦ .ite (fun _ ↦ h halike) fun _ ↦ hother halike

theorem keepsAlike_pure (result : α) : KeepsAlike (pure result : Work κ α) :=
  fun halike ↦ .pure halike

theorem keepsAlike_deleteRowsDominatedBy (row : Nat) :
    KeepsAlike (deleteRowsDominatedBy row : Work κ Nat) := by
  intro first second h
  apply Abreast.table
  rw [← h.isActive_eq]
  refine .ite (fun hactive ↦ ?_) fun _ ↦ .pure h
  rw [← h.dominatedRows_eq hactive]
  let invariant (left : List Nat) (next last : Matrix κ) : Prop :=
    Alike next last ∧ left.Nodup ∧ ∀ other ∈ left, next.isActive (.row other) = true
  have hstart : invariant (first.dominatedRows row) first second :=
    ⟨h, h.linked.1.nodup_dominatedRows hactive,
      fun other hother ↦ (h.linked.1.of_mem_dominatedRows hactive hother).1⟩
  refine (Abreast.forM invariant (fun dominated others next last hnext ↦ ?_) hstart).bind
    fun _ _ _ hend ↦ .pure hend.1
  obtain ⟨halike, hnodup, hleft⟩ := hnext
  obtain ⟨hnew, hothers⟩ := List.nodup_cons.mp hnodup
  have hdominated := hleft dominated (by simp)
  refine .note ((abreast_delete halike hdominated).bind fun _ later latest hsame ↦ ?_)
  obtain ⟨rfl, rfl⟩ := hsame
  refine .countOnly ⟨halike.deleted hdominated, hothers, fun other hother ↦ ?_⟩
  refine (isActive_deleted halike.linked.1 halike.settled.1 hdominated).mpr
    ⟨hleft other (by simp [hother]), fun heq ↦ ?_, by simp⟩
  obtain rfl : other = dominated := congrArg Line.index heq
  exact hnew hother

theorem keepsAlike_rowDominance : KeepsAlike (rowDominance : Work κ Bool) := by
  intro first second h
  apply Abreast.table
  rw [← h.activeBySize_eq]
  exact (keepsAlike_foldlM keepsAlike_deleteRowsDominatedBy _ _ _ h).bind fun _ _ _ hnext ↦ .pure hnext

theorem keepsAlike_deleteColumnIfDominated (column : Nat) :
    KeepsAlike (deleteColumnIfDominated column : Work κ Nat) := by
  intro first second h
  apply Abreast.table
  rw [← h.isActive_eq]
  refine .ite (fun hactive ↦ ?_) fun _ ↦ .pure h
  rw [← h.dominator?_eq hactive]
  cases first.dominator? column with
  | none => exact .pure h
  | some dominator =>
    refine .note ((abreast_delete h hactive).bind fun _ left right hsame ↦ ?_)
    obtain ⟨rfl, rfl⟩ := hsame
    exact .count (.pure (h.deleted hactive))

theorem keepsAlike_columnDominance : KeepsAlike (columnDominance : Work κ Bool) := by
  intro first second h
  apply Abreast.table
  rw [← h.activeBySize_eq]
  exact (keepsAlike_foldlM keepsAlike_deleteColumnIfDominated _ _ _ h).bind
    fun _ _ _ hnext ↦ .pure hnext

theorem keepsAlike_selectOnlyColumn (row : Nat) :
    KeepsAlike (selectOnlyColumn row : Work κ Reduction) := by
  intro first second h
  apply Abreast.table
  rw [← h.isActive_eq]
  refine .ite (fun hactive ↦ ?_) fun _ ↦ .pure h
  have hcolumns : first.columnsOf row = second.columnsOf row := h.crossing (.row row) hactive
  rw [← hcolumns]
  cases hlist : first.columnsOf row with
  | nil => exact .pure h
  | cons column rest =>
    have hmem : column ∈ first.crossing (.row row) := by
      change column ∈ first.columnsOf row
      simp [hlist]
    have hcolumn := h.linked.1.isActive_of_mem_crossing hactive hmem
    refine .note ((abreast_select h hcolumn).bind fun _ left right hsame ↦ ?_)
    obtain ⟨rfl, rfl⟩ := hsame
    exact .count (.pure (h.selected hcolumn))

theorem keepsAlike_essentialColumns : KeepsAlike (essentialColumns : Work κ Reduction) := by
  intro first second h
  apply Abreast.table
  rw [← h.singleRows_eq]
  exact keepsAlike_foldlM keepsAlike_selectOnlyColumn _ _ _ h

theorem keepsAlike_reduceOnce (config : Config) : KeepsAlike (reduceOnce config : Work κ Reduction) := by
  intro first second h
  rw [reduceOnce_eq]
  refine (keepsAlike_ite keepsAlike_rowDominance (keepsAlike_pure false) h).bind
    fun _ _ _ hrows ↦ ?_
  refine (keepsAlike_ite keepsAlike_columnDominance (keepsAlike_pure false) hrows).bind
    fun _ _ _ hcolumns ↦ ?_
  exact (keepsAlike_ite keepsAlike_essentialColumns (keepsAlike_pure Reduction.unchanged) hcolumns).bind
    fun _ _ _ hchosen ↦ .pure hchosen

theorem keepsAlike_reduceWithin (config : Config) (rounds : Nat) :
    KeepsAlike (reduceWithin config rounds : Work κ Reduction) := by
  intro first second h
  induction rounds generalizing first second with
  | zero => exact .throw _ _
  | succ rounds ih =>
    refine (keepsAlike_reduceOnce config h).bind fun reduction left right hnext ↦ ?_
    exact .ite (fun _ ↦ (ih hnext).bind fun _ _ _ hlast ↦ .pure hlast) fun _ ↦ .pure hnext

theorem keepsAlike_reduce (config : Config) : KeepsAlike (reduce config : Work κ Reduction) := by
  intro first second h
  have hrows : first.activeRows = second.activeRows := h.active .row
  have hcolumns : first.activeColumns = second.activeColumns := h.active .column
  apply Abreast.table
  rw [← hrows, ← hcolumns]
  exact keepsAlike_reduceWithin config _ h

/-! ## Searching -/

theorem stay_lowerBound (h : Alike first second) : Stay lowerBound lowerBound first second := by
  apply Abreast.table
  rw [← h.isEmpty_eq, ← h.disjointRows_eq]
  refine .ite (fun _ ↦ .pure ⟨rfl, rfl⟩) fun _ ↦ ?_
  cases first.disjointRows with
  | error fault => exact .throw fault fault
  | ok clique => exact .report (.pure ⟨rfl, rfl⟩)

theorem stay_closeLeaf (cost : κ) (chosen : List Nat) (best : Option κ) (depth : Nat) :
    Stay (closeLeaf cost chosen best depth) (closeLeaf cost chosen best depth) first second :=
  .count (.ite (fun _ ↦ .note (.pure ⟨rfl, rfl⟩)) fun _ ↦ .pure ⟨rfl, rfl⟩)

theorem stay_isCutOff (config : Config) (h : Alike first second) (cost : κ) (best : Option κ)
    (depth : Nat) : Stay (isCutOff config cost best depth) (isCutOff config cost best depth)
      first second := by
  refine .ite (fun _ ↦ ?_) fun _ ↦ .pure ⟨rfl, rfl⟩
  refine Abreast.bind (stay_lowerBound h) fun bound left right hsame ↦ ?_
  exact .ite (fun _ ↦ .pure hsame) fun _ ↦ .note (.count (.pure hsame))

/-- The call stays on tables that look alike. -/
def StaysAlike (work : Work κ α) : Prop :=
  ∀ {first second : Matrix κ}, Alike first second → Stay work work first second

omit [Cost κ] in
/-- A call that only deletes lines and then stays is undone. -/
theorem stay_undoing_bind {work : Work κ α} {rest others : α → Work κ β}
    (hlinked : first.Linked ∧ second.Linked)
    (hwork : Abreast work work first.backup second.backup fun result left right ↦
      Removes first.backup left ∧ Removes second.backup right ∧
        Stay (rest result) (others result) left right) :
    Stay (undoing (work >>= rest)) (undoing (work >>= others)) first second := by
  apply Abreast.undoing hlinked
  refine hwork.bind fun result left right hnext ↦ ?_
  obtain ⟨hleft, hright, hstay⟩ := hnext
  apply Abreast.imp hstay
  intro _ last latest hsame
  obtain ⟨rfl, rfl⟩ := hsame
  exact ⟨hleft, hright⟩

theorem stay_branch {explore : κ → Option κ → Work κ (Option (Cover κ))}
    (hexplore : ∀ cost best, StaysAlike (explore cost best)) (h : Alike first second) (cost : κ)
    (chosen : List Nat) (best : Option κ) (depth : Nat) :
    Stay (branch explore cost chosen best depth) (branch explore cost chosen best depth)
      first second := by
  apply Abreast.table
  rw [← h.first?_eq]
  cases hfirst : first.columns.first? with
  | none => exact .throw _ _
  | some column =>
    have hactive := h.linked.1.isActive_of_first? hfirst
    have hother : second.isActive (.column column) = true := h.isActive_eq _ ▸ hactive
    have hforces := h.forces_eq hactive
    unfold forces at hforces
    dsimp only
    rw [← hforces, ← h.costOf_eq hactive]
    have hchosen : Stay (undoing (select column >>= fun _ ↦ explore (cost + first.costOf column) best))
        (undoing (select column >>= fun _ ↦ explore (cost + first.costOf column) best))
        first second := by
      apply stay_undoing_bind h.linked
      apply (abreast_select h.backup hactive).imp
      intro _ left right hsame
      obtain ⟨rfl, rfl⟩ := hsame
      exact ⟨removes_selected h.backup.linked.1 h.settled.1 hactive,
        removes_selected h.backup.linked.2 h.settled.2 hother,
        hexplore _ _ (h.backup.selected hactive)⟩
    refine .note (Abreast.bind hchosen fun found left right hsame ↦ ?_)
    obtain ⟨rfl, rfl⟩ := hsame
    refine .ite (fun _ ↦ .pure ⟨rfl, rfl⟩) fun _ ↦ ?_
    refine Abreast.bind ?_ fun _ _ _ hsame ↦ .pure hsame
    apply stay_undoing_bind h.linked
    apply (abreast_delete h.backup hactive).imp
    intro _ left right hsame
    obtain ⟨rfl, rfl⟩ := hsame
    exact ⟨(removes_deleted h.backup.linked.1 hactive).1,
      (removes_deleted h.backup.linked.2 hother).1, hexplore _ _ (h.backup.deleted hactive)⟩

theorem staysAlike_searchWithin (config : Config) (levels : Nat) (base : κ) (best : Option κ)
    (depth : Nat) : StaysAlike (searchWithin config levels base best depth) := by
  induction levels generalizing base best depth with
  | zero => exact fun _ ↦ .throw _ _
  | succ levels ih =>
    intro first second h
    apply Abreast.count
    apply stay_undoing_bind h.linked
    have hreduce := (keepsAlike_reduce config h.backup).and
      (ends_reduce_removes config h.backup.linked.1 h.settled.1)
      (ends_reduce_removes config h.backup.linked.2 h.settled.2)
    apply hreduce.imp
    intro reduction left right hnext
    obtain ⟨halike, ⟨hleft, hreduces⟩, hright, -⟩ := hnext
    refine ⟨hleft, hright, ?_⟩
    have hcosts : reduction.selected.map left.costOf = reduction.selected.map right.costOf := by
      apply List.map_congr_left
      intro column hcolumn
      have hactive := (hreduces.chosen_gone h.backup.linked.1 h.settled.1).active column hcolumn
      exact halike.costOf column
        (hleft.inRange_iff.mpr (h.backup.linked.1.inRange_of_isActive hactive))
    apply Abreast.table
    dsimp only
    rw [← hcosts, ← halike.isEmpty_eq]
    refine .ite (fun _ ↦ stay_closeLeaf _ _ _ _) fun _ ↦ ?_
    refine Abreast.bind (stay_isCutOff config halike _ best depth) fun cut last latest hsame ↦ ?_
    obtain ⟨rfl, rfl⟩ := hsame
    exact .ite (fun _ ↦ .pure ⟨rfl, rfl⟩) fun _ ↦
      stay_branch (fun cost best ↦ ih cost best (depth + 1)) halike _ _ _ _

theorem staysAlike_search (config : Config) (base : κ) (best : Option κ) (depth : Nat) :
    StaysAlike (search config base best depth) := by
  intro first second h
  have hcolumns : first.activeColumns = second.activeColumns := h.active .column
  apply Abreast.table
  rw [← hcolumns]
  exact staysAlike_searchWithin config _ base best depth h

/-- Two tables that look alike and have cells in all rows are solved in the same way. -/
theorem stay_solve (config : Config) (h : Alike first second) (hfirst : first.uncoverable? = none)
    (hsecond : second.uncoverable? = none) : Stay (solve config) (solve config) first second := by
  apply Abreast.count
  apply Abreast.table
  rw [hfirst, hsecond]
  refine Abreast.bind (Abreast.onCopy (staysAlike_search config Cost.zero none 0 h))
    fun found left right hsame ↦ ?_
  cases found with
  | none => exact .throw _ _
  | some cover =>
    have hreported (matrix : Matrix κ) : Reaches (do
        let stats := (← get).stats
        note (.solved cover.cost cover.columns.length stats.nodes stats.pruned stats.maxDepth)
        return Answer.cover cover) matrix (id ∘ id) (Answer.cover cover) matrix :=
      .get fun _ _ ↦ .bind (.report _) (.pure _)
    exact .inl ⟨_, _, left, right, hreported left, hreported right, hsame⟩

/-- What was counted before a table is solved is forgotten. -/
theorem Reaches.forget {config : Config} {matrix : Matrix κ} {change : Stats → Stats}
    {answer : Answer κ} (h : Reaches (solve config) matrix change answer matrix) :
    Reaches (solve config) matrix (fun _ ↦ change Stats.zero) answer matrix :=
  fun _ journal ↦ h Stats.zero journal

omit [Cost κ] in
theorem Reaches.answer_eq {work : Work κ α} {matrix next : Matrix κ} {change : Stats → Stats}
    {result other : α} (h : Reaches work matrix change result next) {stats : Stats}
    {journal : Journal κ} (hanswer : Calls.answer work ⟨matrix, stats, journal⟩ = .ok other) :
    result = other := by
  obtain ⟨later, hwork⟩ := h stats journal
  exact Except.ok.inj ((Calls.answer_of_ok hwork).symm.trans hanswer)

/-! ## Tables with the same snapshot -/

/-- The call is carried out on both tables with one result and one change of the statistics, and it
leaves tables with the same snapshot behind. -/
def ActsAlike (work : Work κ α) (first second : Matrix κ) : Prop :=
  ∃ change result left right, Reaches work first change result left ∧
    Reaches work second change result right ∧ left.snapshot.same right.snapshot = true

variable [LawfulCost κ]

theorem KeepsAlike.actsAlike {work : Work κ α} (h : KeepsAlike work) (halike : Alike first second)
    {done : α → Matrix κ → Prop} (hends : Ends work first done fun _ _ ↦ False) :
    ActsAlike work first second := by
  obtain ⟨change, result, left, right, hleft, hright, hlast⟩ := (h halike).exists_reaches hends
  exact ⟨change, result, left, right, hleft, hright, Snapshot.same_iff.mpr hlast.snapshot_eq⟩

/-- On reachable tables with the same snapshot, however they came about, the rules answer the same,
count the same and leave the same snapshots behind, the lower bound is the same, and if both tables can
be solved, then with the same cost, the same columns in the same order and the same statistics. -/
theorem actsAlike_of_snapshot (hfirst : first.Reachable) (hsecond : second.Reachable)
    (hsame : first.snapshot.same second.snapshot = true) :
    ActsAlike rowDominance first second ∧ ActsAlike columnDominance first second ∧
      ActsAlike essentialColumns first second ∧
      (∀ config, ActsAlike (reduce config) first second) ∧ ActsAlike lowerBound first second ∧
      ∀ (config : Config) (cover other : Cover κ) (stats counted : Stats)
        (journal reported : Journal κ),
        Calls.answer (solve config) ⟨first, stats, journal⟩ = .ok (.cover cover) →
        Calls.answer (solve config) ⟨second, counted, reported⟩ = .ok (.cover other) →
        cover = other ∧ ∃ total, Reaches (solve config) first (fun _ ↦ total) (.cover cover) first ∧
          Reaches (solve config) second (fun _ ↦ total) (.cover cover) second := by
  obtain ⟨hlinked, hsettled⟩ : first.Linked ∧ first.Settled :=
    ⟨hfirst.intact.linked, hfirst.intact.settled⟩
  have halike : Alike first second := hlinked.alike hsecond.intact.linked
    ⟨hsettled, hsecond.intact.settled⟩ (Snapshot.same_iff.mp hsame)
  refine ⟨?_, ?_, ?_, fun config ↦ ?_, ?_, fun config cover other stats counted journal reported
    hcover hother ↦ ?_⟩
  · exact keepsAlike_rowDominance.actsAlike halike (ends_rowDominance hlinked hsettled)
  · exact keepsAlike_columnDominance.actsAlike halike (ends_columnDominance hlinked hsettled)
  · exact keepsAlike_essentialColumns.actsAlike halike (ends_essentialColumns hlinked hsettled)
  · exact KeepsAlike.actsAlike (keepsAlike_reduce config) halike (ends_reduce hlinked hsettled config)
  · have hbound := @Completes.ends _ _ _ _ _ (fun _ _ ↦ False) (completes_lowerBound hlinked hsettled)
    obtain ⟨change, bound, left, right, hleft, hright, rfl, rfl⟩ :=
      Abreast.exists_reaches (stay_lowerBound halike) hbound
    exact ⟨change, bound, left, right, hleft, hright, hsame⟩
  · have hends := @Completes.ends _ _ _ _ _ (fun _ _ ↦ False) (completes_solve config hlinked hsettled)
    obtain ⟨change, answer, left, right, hleft, hright, rfl, rfl⟩ := Abreast.exists_reaches
      (stay_solve config halike (uncoverable?_of_solve hfirst.intact hcover)
        (uncoverable?_of_solve hsecond.intact hother)) hends
    obtain rfl := hleft.answer_eq hcover
    obtain rfl := Answer.cover.inj (hright.answer_eq hother)
    exact ⟨rfl, change Stats.zero, hleft.forget, hright.forget⟩

/-- One table is filled in order, the other one from the end, with duplicates and in the slots that a
clearance left; a row is deleted that held different cells, behind a marker in one of them. -/
theorem actsAlike_of_snapshot_recycled :
    let first := (Operation.afterAll [.insert 0 0, .insert 0 1, .insert 1 1, .insert 1 2, .insert 2 0,
      .insert 2 2, .insert 3 1, .setCost 1 0 2.0, .delete (.row 3)]
      (Workbench.blank SingleCost 4 3 false)).matrix
    let second := (Operation.afterAll [.insert 1 0, .insert 3 2, .clear, .insert 3 2, .insert 3 0,
      .insert 2 2, .insert 2 0, .insert 1 2, .insert 1 1, .insert 2 2, .insert 0 1, .insert 0 0,
      .setCost 1 0 2.0, .backup, .delete (.row 3)] (Workbench.blank SingleCost 4 3 false)).matrix
    first.columnsOf 3 = [1] ∧ second.columnsOf 3 = [0, 2] ∧ ActsAlike (reduce .full) first second ∧
      ∃ total, Reaches (solve ⟨false, false, true, true⟩) first (fun _ ↦ total)
          (.cover ⟨⟨2.0⟩, [0, 2]⟩) first ∧
        Reaches (solve ⟨false, false, true, true⟩) second (fun _ ↦ total)
          (.cover ⟨⟨2.0⟩, [0, 2]⟩) second := by
  intro first second
  have hfirst : first.Reachable := reachable_afterAll_blank 4 3 false _
  have hsecond : second.Reachable := reachable_afterAll_blank 4 3 false _
  have hsame : first.snapshot.same second.snapshot = true := by decide +kernel
  obtain ⟨hrow, hother⟩ : first.columnsOf 3 = [1] ∧ second.columnsOf 3 = [0, 2] := by decide +kernel
  have hcover : Calls.answer (solve ⟨false, false, true, true⟩)
      ⟨first, Stats.zero, Journal.empty false⟩ = .ok (.cover ⟨⟨2.0⟩, [0, 2]⟩) := by
    decide +kernel
  have hsolved : Calls.answer (solve ⟨false, false, true, true⟩)
      ⟨second, Stats.zero, Journal.empty true⟩ = .ok (.cover ⟨⟨2.0⟩, [0, 2]⟩) := by
    decide +kernel
  clear_value first second
  obtain ⟨-, -, -, hreduce, -, hsolve⟩ := actsAlike_of_snapshot hfirst hsecond hsame
  exact ⟨hrow, hother, hreduce .full, (hsolve _ _ _ _ _ _ _ hcover hsolved).2⟩

end SetCover.Workbench

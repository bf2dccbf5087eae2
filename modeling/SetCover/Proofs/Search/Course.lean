import SetCover.Proofs.Linkage
import SetCover.Proofs.Search.Determined
import SetCover.Proofs.Search.Rules

/-!
# The course of a search

A search comes through many tables before it answers.  Its course lists them: the table of a node, the
reduced one, and those with a column chosen or deleted, each reached by the very call that the search
makes.  All of them, and those that a reduction passes, are well linked, and every row of theirs keeps a
cell, whether it is active or not.  The graph of the lower bound is assembled without a refusal, and its
clique grows as long as there are candidates, until it has a row of every group.

So solving never breaks off, and it fails to find a cover only if a row had no cell from the start.
-/

namespace SetCover

variable {κ : Type} [Cost κ]

namespace Matrix

variable {matrix next : Matrix κ} {chosen : List Nat} {column : Nat}

/-- What a search relies on in every table that it comes to. -/
structure Searchable (matrix : Matrix κ) : Prop where
  wellLinked : matrix.WellLinked
  supplied : matrix.Supplied
  /-- The graph of the lower bound is assembled, and its clique is grown to the end; it has a row of
  every group. -/
  clique : ∃ costs graph, matrix.activeRows.mapM matrix.cheapest = .ok costs ∧
    Graph.assemble costs (matrix.activeRows.map matrix.groups.root) = .ok graph ∧
    matrix.disjointRows = .ok graph.solve.1 ∧ graph.Grown graph.solve.1 ∧
    ∀ row ∈ matrix.activeRows, ∃ pick ∈ graph.solve.1.picks, ∃ picked,
      matrix.activeRows[pick.node]? = some picked ∧
        matrix.groups.root picked = matrix.groups.root row

theorem Supplied.searchable (h : matrix.Supplied) (hmatrix : matrix.Linked)
    (hsettled : matrix.Settled) : matrix.Searchable where
  wellLinked := hmatrix.wellLinked hsettled
  supplied := h
  clique := hmatrix.exists_pick hsettled

omit [Cost κ] in
/-- Rows that have cells after deletions had cells before. -/
theorem Supplied.of_later (h : next.Supplied) (hmatrix : matrix.Linked)
    (hremoves : Removes matrix next) : matrix.Supplied := by
  intro row hrow
  have hrange : matrix.InRange (.row row) := hrow
  exact lt_of_lt_of_le (h row (hremoves.inRange_iff.mpr hrange)) (hremoves.count_le hmatrix hrange)

end Matrix

open SetCover.Matrix

/-- A node reduces its table, behind a marker, to the second table, and chooses the columns. -/
structure Reached (config : Config) (matrix : Matrix κ) (chosen : List Nat) (next : Matrix κ) :
    Prop where
  before : matrix.Searchable
  reduce : Workbench.Ends (Workbench.reduce config) matrix.backup
    (fun reduction later ↦ reduction.selected = chosen ∧ later = next) fun _ _ ↦ False
  after : next.Searchable
  /-- The links stay in order on the way, and no row loses its last cell. -/
  between : ∀ passed, Deletes matrix.backup passed → Deletes passed next →
    passed.WellLinked ∧ passed.Supplied

/-- What is known of the outcome of a reduction is known of the table that a node comes to. -/
theorem Reached.of_ends {config : Config} {matrix next : Matrix κ} {chosen : List Nat}
    {holds : List Nat → Matrix κ → Prop} (h : Reached config matrix chosen next)
    (hreduce : Workbench.Ends (Workbench.reduce config) matrix.backup
      (fun reduction later ↦ holds reduction.selected later) fun _ _ ↦ True) : holds chosen next := by
  have hboth := (h.reduce.and hreduce).imp (fun _ _ hdone ↦ hdone) fun _ _ hrefused ↦ hrefused.1
  obtain ⟨reduction, bench, -, ⟨rfl, rfl⟩, hholds⟩ :=
    (hboth Stats.zero (Journal.empty false)).exists_ok
  exact hholds

theorem Reached.reduces {config : Config} {matrix next : Matrix κ} {chosen : List Nat}
    (h : Reached config matrix chosen next) (hmatrix : matrix.Linked) (hsettled : matrix.Settled) :
    Reduces matrix.backup chosen next :=
  h.of_ends (Workbench.ends_reduce hmatrix.backup hsettled config)

/-- The table that a node branches on is in order. -/
theorem Reached.branches {config : Config} {matrix next : Matrix κ} {chosen : List Nat}
    (h : Reached config matrix chosen next) (hmatrix : matrix.Linked) (hsettled : matrix.Settled) :
    next.backup.Linked ∧ next.backup.Settled := by
  have hreduces := h.reduces hmatrix hsettled
  exact ⟨(hreduces.linked hmatrix.backup hsettled).backup, hreduces.settled hmatrix.backup hsettled⟩

section Branching

variable {config : Config} {matrix next taken left : Matrix κ} {chosen : List Nat} {column : Nat}

/-- A node branches on an active column, so choosing it goes through. -/
theorem Reached.taken_eq (h : Reached config matrix chosen next) (hmatrix : matrix.Linked)
    (hsettled : matrix.Settled) (hfirst : next.columns.first? = some column)
    (hselect : Matrix.select column next.backup = .ok () taken) :
    next.backup.isActive (.column column) = true ∧ taken = next.backup.selected column := by
  obtain ⟨hnext, hnextSettled⟩ := h.branches hmatrix hsettled
  have hactive := hnext.isActive_of_first? hfirst
  exact ⟨hactive, (Calls.next_eq (select_of_isActive hnext hnextSettled hactive) hselect).symm⟩

theorem Reached.left_eq (h : Reached config matrix chosen next) (hmatrix : matrix.Linked)
    (hsettled : matrix.Settled) (hfirst : next.columns.first? = some column)
    (hdelete : Matrix.delete (.column column) next.backup = .ok () left) :
    left = next.backup.deleted (.column column) := by
  obtain ⟨hnext, -⟩ := h.branches hmatrix hsettled
  exact (Calls.next_eq (delete_of_isActive hnext (hnext.isActive_of_first? hfirst)) hdelete).symm

end Branching

/-- The course of a search below a node, with what was spent on the way to the node and the incumbent,
and what the search finds. -/
inductive Course (config : Config) : Matrix κ → κ → Option κ → Option (Cover κ) → Prop
  /-- No row is left. -/
  | leaf {matrix next : Matrix κ} {base : κ} {best : Option κ} {chosen : List Nat} {cost : κ} :
      Reached config matrix chosen next → cost = Cost.sumFrom base (chosen.map next.costOf) →
      next.isEmpty = true →
      Course config matrix base best
        (if Workbench.improves cost best then some ⟨cost, chosen⟩ else none)
  /-- The lower bound shows that nothing better than the incumbent is left. -/
  | cut {matrix next : Matrix κ} {base : κ} {best : Option κ} {chosen : List Nat} {cost bound : κ} :
      Reached config matrix chosen next → cost = Cost.sumFrom base (chosen.map next.costOf) →
      ¬next.isEmpty = true → config.lowerBound = true →
      Workbench.Completes Workbench.lowerBound next (· = bound) →
      ¬Workbench.improves (bound + cost) best = true → Course config matrix base best none
  /-- Some row has no column but the first one. -/
  | forced {matrix next taken : Matrix κ} {base cost : κ} {best : Option κ} {chosen : List Nat}
      {column : Nat} {found : Option (Cover κ)} :
      Reached config matrix chosen next → cost = Cost.sumFrom base (chosen.map next.costOf) →
      next.columns.first? = some column → next.forces column = true →
      Matrix.select column next.backup = .ok () taken →
      Course config taken (cost + next.costOf column) best found →
      Course config matrix base best (found.map (Cover.prepend (chosen ++ [column])))
  /-- The first column is chosen, and then it is deleted. -/
  | both {matrix next taken left : Matrix κ} {base cost : κ} {best : Option κ} {chosen : List Nat}
      {column : Nat} {found other : Option (Cover κ)} :
      Reached config matrix chosen next → cost = Cost.sumFrom base (chosen.map next.costOf) →
      next.columns.first? = some column → ¬next.forces column = true →
      Matrix.select column next.backup = .ok () taken →
      Course config taken (cost + next.costOf column) best found →
      Matrix.delete (.column column) next.backup = .ok () left →
      Course config left cost (found.map Cover.cost <|> best) other →
      Course config matrix base best
        (other.map (Cover.prepend chosen) <|> found.map (Cover.prepend (chosen ++ [column])))

namespace Workbench

variable {matrix next : Matrix κ} {config : Config} {chosen : List Nat} {cost base : κ}
  {best : Option κ}

theorem yields_course_closeLeaf (hreached : Reached config matrix chosen next)
    (hempty : next.isEmpty = true) (depth : Nat) :
    Yields (closeLeaf (Cost.sumFrom base (chosen.map next.costOf)) chosen best depth) next
      (Course config matrix base best) fun _ ↦ True := by
  have hleaf := @Course.leaf κ _ config matrix next base best chosen _ hreached rfl hempty
  apply Yields.count
  split
  · rename_i himproves
    rw [if_pos himproves] at hleaf
    exact Yields.note (Yields.pure hleaf)
  · rename_i himproves
    rw [if_neg himproves] at hleaf
    exact Yields.pure hleaf

theorem yields_course_isCutOff (hreached : Reached config matrix chosen next) (h : next.Linked)
    (hsettled : next.Settled) (hempty : ¬next.isEmpty = true) (depth : Nat) :
    Yields (isCutOff config (Cost.sumFrom base (chosen.map next.costOf)) best depth) next
      (fun cut ↦ cut = true → Course config matrix base best none) fun _ ↦ True := by
  obtain ⟨bound, hbound⟩ :=
    Determined.inherited.lowerBound.exists_answer (completes_lowerBound h hsettled)
  unfold isCutOff
  split
  · rename_i hbounded
    apply hbound.yields.bind
    intro answer heq
    dsimp only
    rw [heq]
    split
    · exact Yields.pure fun hcut ↦ nomatch hcut
    · rename_i himproves
      exact Yields.note (Yields.count (Yields.pure fun _ ↦
        .cut hreached rfl hempty hbounded hbound himproves))
  · exact Yields.pure fun hcut ↦ nomatch hcut

/-- What the two branches below a reduced node need in order to go on. -/
theorem yields_course_branch {explore : κ → Option κ → Work κ (Option (Cover κ))}
    (hexplore : ∀ (later : Matrix κ) cost best, later.Linked → later.Settled → later.Supplied →
      Yields (explore cost best) later (Course config later cost best) fun _ ↦ True)
    (h : next.Linked) (hsettled : next.Settled) (hreached : Reached config matrix chosen next)
    (hempty : ¬next.isEmpty = true) (depth : Nat) :
    Yields (branch explore (Cost.sumFrom base (chosen.map next.costOf)) chosen best depth) next
      (Course config matrix base best) fun _ ↦ True := by
  obtain ⟨column, hfirst⟩ := h.exists_first? hsettled hempty
  have hactive := h.isActive_of_first? hfirst
  have hsupplied : next.backup.Supplied := hreached.after.supplied
  have hselect := select_of_isActive h.backup hsettled hactive
  have hchosen := hexplore _ (Cost.sumFrom base (chosen.map next.costOf) + next.costOf column) best
    ((removes_selected h.backup hsettled hactive).linked h.backup)
    (settled_selected h.backup hsettled hactive)
    (hsupplied.selected h.backup hsettled hactive)
  refine Yields.branch h hsettled hfirst hchosen (fun hforces found hfound ↦ ?_)
    fun hforces found hfound ↦ ?_
  · exact .forced hreached rfl hfirst hforces hselect hfound
  · have hspare := h.backup.spare_of_not_forces hactive hforces
    apply (hexplore _ _ _ ((removes_deleted h.backup hactive).1.linked h.backup)
      (settled_deleted h.backup hsettled hactive)
      (hsupplied.deletedColumn h.backup hsettled hactive hspare)).imp
    intro other hother
    exact .both hreached rfl hfirst hforces hselect hfound (delete_of_isActive h.backup hactive)
      hother

/-- A search below a node takes its course. -/
theorem yields_course (config : Config) (levels : Nat) (h : matrix.Linked) (hsettled : matrix.Settled)
    (hsupplied : matrix.Supplied) (base : κ) (best : Option κ) (depth : Nat) :
    Yields (searchWithin config levels base best depth) matrix (Course config matrix base best)
      fun _ ↦ True := by
  induction levels generalizing matrix base best depth with
  | zero => exact Yields.throw trivial
  | succ levels ih =>
    obtain ⟨chosen, next, hreduces, hreduce⟩ := exists_reduce h.backup hsettled config
    have hdeletes := hreduces.deletes h.backup hsettled
    have hlinked := hreduces.linked h.backup hsettled
    have hnextSettled := hreduces.settled h.backup hsettled
    have hnext : next.Supplied := hreduces.supplied h.backup hsettled hsupplied
    have hreached : Reached config matrix chosen next := by
      refine ⟨hsupplied.searchable h hsettled, hreduce config.lowerBound,
        hnext.searchable hlinked hnextSettled, fun passed hbefore hafter ↦ ?_⟩
      have hpassed := hbefore.removes h.backup hsettled
      have hpassedLinked := hpassed.1.linked h.backup
      exact ⟨hpassedLinked.wellLinked hpassed.2,
        hnext.of_later hpassedLinked (hafter.removes hpassedLinked hpassed.2).1⟩
    refine Yields.searchWithin_of_reduce h (hdeletes.removes h.backup hsettled).1
      (hreduce config.lowerBound) (fun hempty ↦ ?_) (fun hempty ↦ ?_) fun hempty ↦ ?_
    · exact yields_course_closeLeaf hreached hempty depth
    · exact yields_course_isCutOff hreached hlinked hnextSettled hempty depth
    · exact yields_course_branch (fun later cost best hlater hsettled hsupplied ↦
        ih hlater hsettled hsupplied cost best _) hlinked hnextSettled hreached hempty depth

theorem course_of_solve (h : matrix.Intact) {stats : Stats} {journal : Journal κ}
    {cover : Cover κ}
    (hsolve : Calls.answer (solve config) ⟨matrix, stats, journal⟩ = .ok (.cover cover)) :
    Course config matrix Cost.zero none (some cover) := by
  have hsupplied := uncoverable?_eq_none_iff.mp (uncoverable?_of_solve h hsolve)
  have hsearch : Yields (search config Cost.zero none 0) matrix
      (Course config matrix Cost.zero none) fun _ ↦ True :=
    Yields.table (yields_course config _ h.linked h.settled hsupplied Cost.zero none 0)
  exact ((Yields.solve hsearch fun _ ↦ trivial).of_answer hsolve).2 cover rfl

/-- In every setting, solving a reachable table is carried out and leaves the table as it is.  It
answers with a row if and only if this is the first one without cells; if there is none, then the
search takes its course, through tables that keep cells in every row, to a cover.  However far a clique
has been grown, there is a next pick as long as there are candidates. -/
theorem exists_course_of_solve [LawfulCost κ] (h : matrix.Reachable) (config : Config) (stats : Stats)
    (journal : Journal κ) : ∃ answer bench,
      solve config ⟨matrix, stats, journal⟩ = .ok answer bench ∧ bench.matrix = matrix ∧
        (∀ row, answer = .uncoverable row ↔ row < matrix.rowSize ∧ matrix.count (.row row) = 0 ∧
          ∀ other < row, 0 < matrix.count (.row other)) ∧
        (matrix.Supplied →
          ∃ cover, answer = .cover cover ∧ Course config matrix Cost.zero none (some cover)) ∧
        ∀ (graph : Graph κ) adjacency candidates steps earlier later,
          graph.grow adjacency steps candidates = earlier ++ later → earlier.length < steps →
          Graph.remaining adjacency candidates earlier ≠ [] →
            ∃ pick rest, later = pick :: rest ∧ graph.heaviest? adjacency
              (Graph.remaining adjacency candidates earlier) = some pick.node := by
  have hintact := h.intact
  obtain ⟨hlinked, hsettled⟩ : matrix.Linked ∧ matrix.Settled := ⟨hintact.linked, hintact.settled⟩
  have hsearch : Completes (search config (Cost.zero : κ) none 0) matrix fun found ↦
      found.isSome = true ∧ (matrix.Supplied → Course config matrix Cost.zero none found) := by
    by_cases hsupplied : matrix.Supplied
    · apply ((completes_search config hlinked hsettled Cost.zero none 0).and
        (Yields.table (yields_course config _ hlinked hsettled hsupplied Cost.zero none 0))).imp
      intro found hfound
      exact ⟨hfound.1 rfl, fun _ ↦ hfound.2⟩
    · apply (completes_search config hlinked hsettled (Cost.zero : κ) none 0).imp
      intro found hfound
      exact ⟨hfound rfl, fun hrows ↦ absurd hrows hsupplied⟩
  have hsolve : Completes (solve config) matrix _ :=
    Yields.solve hsearch fun hnone ↦ nomatch hnone.1
  obtain ⟨answer, bench, hrun, hsame, hrows, hcover⟩ :=
    (@Completes.ends _ _ _ _ _ (fun _ _ ↦ False) hsolve stats journal).exists_ok
  have hexact : ∀ row, answer = .uncoverable row ↔ row < matrix.rowSize ∧
      matrix.count (.row row) = 0 ∧ ∀ other < row, 0 < matrix.count (.row other) := by
    intro row
    rw [← hrows row, uncoverable?_eq_some_iff]
  refine ⟨answer, bench, hrun, hsame, hexact, fun hsupplied ↦ ?_,
    fun _ _ _ _ _ _ ↦ Graph.exists_pick_of_remaining⟩
  · cases answer with
    | cover cover => exact ⟨cover, rfl, (hcover cover rfl).2 hsupplied⟩
    | uncoverable row =>
      obtain ⟨hrow, hzero, -⟩ := (hexact row).mp rfl
      exact absurd hzero (hsupplied row hrow).ne'

/-- Behind a marker a row is deleted; the search branches.  Then a column is deleted with which another
row falls, and this row is reported. -/
theorem exists_course_of_solve_pending :
    let bench := Operation.afterAll [.insert 0 0, .insert 0 1, .insert 1 1, .insert 1 2, .insert 2 0,
      .insert 2 2, .insert 3 3, .insert 4 3, .backup, .delete (.row 3)]
      (Workbench.blank SingleCost 5 4 false)
    let emptied := Operation.afterAll [.delete (.column 3)] bench
    (∃ cover, Calls.answer (solve .full) bench = .ok (.cover cover) ∧
        Course .full bench.matrix Cost.zero none (some cover)) ∧
      Calls.answer (solve .full) emptied = .ok (.uncoverable 4) := by
  intro bench emptied
  have hreachable : bench.matrix.Reachable := reachable_afterAll_blank 5 4 false _
  have hemptied : emptied.matrix.Reachable := hreachable.afterAll _
  have hsupplied : bench.matrix.Supplied := by
    unfold Supplied
    decide +kernel
  have hfirst : 4 < emptied.matrix.rowSize ∧ emptied.matrix.count (.row 4) = 0 ∧
      ∀ other < 4, 0 < emptied.matrix.count (.row other) := by
    decide +kernel
  clear_value emptied bench
  obtain ⟨answer, after, hsolve, -, -, hcourse, -⟩ :=
    exists_course_of_solve hreachable .full bench.stats bench.journal
  obtain ⟨refusal, afterwards, hrefused, -, hexact, -⟩ :=
    exists_course_of_solve hemptied .full emptied.stats emptied.journal
  obtain ⟨cover, rfl, hcover⟩ := hcourse hsupplied
  obtain rfl := (hexact 4).mpr hfirst
  refine ⟨⟨cover, ?_, hcover⟩, ?_⟩
  · exact Calls.answer_of_ok hsolve
  · exact Calls.answer_of_ok hrefused

end Workbench

end SetCover

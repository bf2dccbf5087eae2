import SetCover.Proofs.Reachable
import SetCover.Proofs.Search.Recycling
import SetCover.Session

/-!
# Cleared tables are as good as new

A session on a cleared table runs like one on a new table of the same shape.  Every command gets the
same reply, writes the same messages and leaves the same table behind, but for the slots that the cells
of the cleared table have left and that new cells are put into before there are new slots.
-/

namespace SetCover

open SetCover.Calls

variable {κ α β : Type}

/-! ## Steps that show the same -/

mutual

/-- The replies are the same; tables in nested steps may differ in spare slots. -/
inductive Reply.Akin : Reply κ → Reply κ → Prop
  | refl (reply : Reply κ) : Reply.Akin reply reply
  | nested {steps others : List (Step κ)} (h : List.Forall₂ Step.Akin steps others) :
      Reply.Akin (.nested steps) (.nested others)
  | interrupted {steps others : List (Step κ)} (h : List.Forall₂ Step.Akin steps others)
      (fault : Fault) : Reply.Akin (.interrupted steps fault) (.interrupted others fault)

/-- The steps have the same reply, the same messages and the same table but for spare slots. -/
inductive Step.Akin : Step κ → Step κ → Prop
  | mk {reply other : Reply κ} {matrix image : Matrix κ} (hreply : Reply.Akin reply other)
      (hmatrix : matrix.Akin image) (messages : List String) :
      Step.Akin (.mk reply matrix messages) (.mk other image messages)

end

/-- Both commands are refused for the same reason, or both are carried out with replies that are the
same. -/
inductive Reply.SameOutcome : Except Fault (Reply κ) → Except Fault (Reply κ) → Prop
  | refused (fault : Fault) : SameOutcome (.error fault) (.error fault)
  | carriedOut {reply other : Reply κ} (h : Reply.Akin reply other) :
      SameOutcome (.ok reply) (.ok other)

namespace Session

variable {first second : Session κ}

/-- The sessions are the same but for spare slots in the tables of the first one. -/
structure Akin (first second : Session κ) : Prop where
  bench : first.bench.Akin second.bench
  config : first.config = second.config
  selected : first.selected = second.selected
  matrices : List.Forall₂ (fun kept other ↦ kept.1 = other.1 ∧ kept.2.Akin other.2)
    first.matrices second.matrices
  snapshots : first.snapshots = second.snapshots

/-! ## Calls -/

theorem respects_work {call : Work κ α} (h : Respects Workbench.Akin call) :
    Respects Akin (work call) :=
  .onPart Session.bench (fun session bench ↦ { session with bench := bench })
    (fun hcall ↦ by rw [work, hcall]) (fun hcall ↦ by rw [work, hcall]) Akin.bench
    (fun hakin hnext ↦ ⟨hnext, hakin.config, hakin.selected, hakin.matrices, hakin.snapshots⟩) h

theorem respects_edit {change : Matrix.Edit κ α} (h : Respects Matrix.Akin change) :
    Respects Akin (edit change) :=
  respects_work (Workbench.respects_edit h)

theorem respects_view {answer : Matrix κ → α}
    (hpadded : ∀ matrix spare, answer (matrix.padded spare) = answer matrix) :
    Respects Akin (view answer) :=
  .get_bind (fun _ _ h ↦ by rw [h.bench.matrix.view_eq hpadded]) fun _ ↦ .pure _

theorem respects_query (line : Line) {answer : Matrix κ → α}
    (hpadded : ∀ matrix spare, answer (matrix.padded spare) = answer matrix) :
    Respects Akin (query line answer) :=
  .bind (respects_edit (Matrix.respects_requireLine line)) fun _ ↦ respects_view hpadded

theorem respects_choose (reduction : Reduction) : Respects Akin (choose reduction : Call κ (Reply κ)) :=
  .bind (.modifying fun _ _ h ↦
      ⟨h.bench, h.config, congrArg (· ++ reduction.selected) h.selected, h.matrices, h.snapshots⟩)
    fun _ ↦ .get_bind (fun _ _ h ↦ by rw [h.selected]) fun _ ↦ .pure _

variable [Cost κ]

theorem respects_snapshot : Respects Akin (view Matrix.snapshot : Call κ (Snapshot κ)) :=
  respects_view fun _ _ ↦ by rw [Matrix.snapshot_padded]

omit [Cost κ] in
/-- Under one name either nothing is kept, or tables that are the same but for spare slots. -/
theorem lookup_akin {kept others : List (String × Matrix κ)}
    (h : List.Forall₂ (fun entry other ↦ entry.1 = other.1 ∧ entry.2.Akin other.2) kept others)
    (name : String) :
    (kept.lookup name = none ∧ others.lookup name = none) ∨
      ∃ matrix image, kept.lookup name = some matrix ∧ others.lookup name = some image ∧
        matrix.Akin image := by
  induction h with
  | nil => exact .inl ⟨rfl, rfl⟩
  | @cons entry other _ _ hentry _ ih =>
    rw [List.lookup_cons, List.lookup_cons, ← hentry.1]
    cases name == entry.1 with
    | true => exact .inr ⟨entry.2, other.2, rfl, rfl, hentry.2⟩
    | false => exact ih

theorem respects_load (name : String) : Respects Akin (call (.load name) : Call κ (Reply κ)) := by
  intro first second h
  rcases lookup_akin h.matrices name with ⟨hfirst, hsecond⟩ | ⟨kept, other, hfirst, hsecond, hkept⟩
  · have hcall (session : Session κ) (hnone : session.matrices.lookup name = none) :
        call (.load name) session = .ok .done session := by
      simp only [call, bind_apply, get_apply, hnone, pure_apply]
    exact .of_ok (hcall first hfirst) (hcall second hsecond) h
  · have hcall (session : Session κ) {kept : Matrix κ}
        (hsome : session.matrices.lookup name = some kept) : call (.load name) session =
          .ok .done { session with bench := { session.bench with matrix := kept } } := by
      simp only [call, bind_apply, get_apply, hsome]
      rfl
    exact .of_ok (hcall first hfirst) (hcall second hsecond)
      ⟨⟨hkept, h.bench.stats, h.bench.journal⟩, h.config, h.selected, h.matrices, h.snapshots⟩

/-- A command without nested ones gets the same reply. -/
theorem respects_call (command : Command) : Respects Akin (call command : Call κ (Reply κ)) := by
  cases command with
  | insert row column => exact .bind (respects_edit (Matrix.respects_insert row column)) fun _ ↦ .pure _
  | setCost column component value =>
    exact .bind (respects_edit (Matrix.respects_setCost column component value)) fun _ ↦ .pure _
  | delete line =>
    exact .bind (respects_work (Workbench.respects_inherited.delete line)) fun _ ↦ .pure _
  | select column =>
    exact .bind (respects_work (Workbench.respects_inherited.select column)) fun _ ↦ .pure _
  | backup => exact .bind (respects_work Workbench.respects_backup) fun _ ↦ .pure _
  | restore => exact .bind (respects_work Workbench.respects_restore) fun _ ↦ .pure _
  | clear => exact .bind (respects_edit Matrix.respects_clear) fun _ ↦ .pure _
  | resize rowSize columnSize dimension =>
    exact .bind (respects_edit (Matrix.respects_resize rowSize columnSize dimension)) fun _ ↦ .pure _
  | sizes => exact .bind (respects_view fun _ _ ↦ rfl) fun _ ↦ .pure _
  | count line => exact .bind (respects_query line fun _ _ ↦ rfl) fun _ ↦ .pure _
  | isActive line => exact .bind (respects_query line fun _ _ ↦ rfl) fun _ ↦ .pure _
  | cost column => exact .bind (respects_query _ fun _ _ ↦ rfl) fun _ ↦ .pure _
  | crossing line =>
    exact .bind (respects_query line fun _ _ ↦ by rw [Matrix.crossing_padded]) fun _ ↦ .pure _
  | first axis => exact .bind (respects_view fun _ _ ↦ rfl) fun _ ↦ .pure _
  | counts => exact .bind (respects_view fun _ _ ↦ rfl) fun _ ↦ .pure _
  | isEmpty => exact .bind (respects_view fun _ _ ↦ rfl) fun _ ↦ .pure _
  | text => exact .bind (respects_view Matrix.text_padded) fun _ ↦ .pure _
  | debugText => exact .bind (respects_view fun _ _ ↦ rfl) fun _ ↦ .pure _
  | check => exact .bind (respects_view fun _ _ ↦ by rw [Matrix.check_padded]) fun _ ↦ .pure _
  | snapshot => exact .bind (respects_snapshot) fun _ ↦ .pure _
  | contains row column =>
    exact .bind (respects_view fun _ _ ↦ by rw [Matrix.snapshot_padded]) fun _ ↦ .pure _
  | keepSnapshot name =>
    exact .bind (respects_snapshot) fun snapshot ↦ .bind (.modifying fun _ _ h ↦
      ⟨h.bench, h.config, h.selected, h.matrices, congrArg ((name, snapshot) :: ·) h.snapshots⟩)
        fun _ ↦ .pure _
  | sameSnapshot name =>
    refine .bind (respects_snapshot) fun snapshot ↦
      .get_bind (fun _ _ h ↦ by rw [h.snapshots]) fun session ↦ ?_
    cases session.snapshots.lookup name with
    | none => exact .pure _
    | some kept => exact .pure _
  | save name =>
    exact .bind (.modifying fun _ _ h ↦
      ⟨h.bench, h.config, h.selected, .cons ⟨rfl, h.bench.matrix⟩ h.matrices, h.snapshots⟩)
        fun _ ↦ .pure _
  | load name => exact respects_load name
  | configure config =>
    exact .bind (respects_work (Workbench.respects_count _)) fun _ ↦ .bind (.modifying fun _ _ h ↦
      ⟨h.bench, rfl, rfl, h.matrices, h.snapshots⟩) fun _ ↦ .pure _
  | rowDominance =>
    exact .bind (respects_work Workbench.respects_inherited.rowDominance) fun _ ↦ .pure _
  | columnDominance =>
    exact .bind (respects_work Workbench.respects_inherited.columnDominance) fun _ ↦ .pure _
  | essentialColumns =>
    exact .bind (respects_work Workbench.respects_inherited.essentialColumns) fun _ ↦ respects_choose _
  | reduce =>
    exact .get_bind (fun _ _ h ↦ by rw [h.config]) fun session ↦
      .bind (respects_work (Workbench.respects_inherited.reduce session.config)) respects_choose
  | lowerBound => exact .bind (respects_work Workbench.respects_inherited.lowerBound) fun _ ↦ .pure _
  | stats => exact .get_bind (fun _ _ h ↦ by rw [h.bench.stats]) fun _ ↦ .pure _
  | solve =>
    exact .get_bind (fun _ _ h ↦ by rw [h.config]) fun session ↦
      .bind (respects_work (Workbench.respects_solve session.config)) fun _ ↦
        .get_bind (fun _ _ h ↦ by rw [h.bench.stats]) fun _ ↦ .pure _
  | checkpoint body => exact .pure _
  | scope body => exact .pure _

/-! ## Runs -/

omit [Cost κ] in
theorem akin_enter (h : Akin first second) : Akin first.enter second.enter :=
  ⟨(Workbench.respects_backup _ _ h.bench).related, h.config, h.selected, h.matrices, h.snapshots⟩

omit [Cost κ] in
theorem akin_leave (h : Akin first second) {steps others : List (Step κ)} {ended other : Option Fault}
    (hsteps : List.Forall₂ Step.Akin steps others) (hended : ended = other) :
    Reply.Akin (first.leave steps ended).1 (second.leave others other).1 ∧
      Akin (first.leave steps ended).2 (second.leave others other).2 := by
  obtain rfl := hended
  unfold leave
  rcases (respects_work Workbench.respects_restore _ _ h).cases with
    ⟨_, next, image, hfirst, hsecond, hnext⟩ | ⟨fault, next, image, hfirst, hsecond, hnext⟩
  all_goals
    rw [hfirst, hsecond]
    cases ended
  · exact ⟨.nested hsteps, hnext⟩
  all_goals exact ⟨.interrupted hsteps _, hnext⟩

theorem akin_finish (h : Akin first second) {reply other : Reply κ} (hreply : Reply.Akin reply other) :
    Step.Akin (first.finish reply).1 (second.finish other).1 ∧
      Akin (first.finish reply).2 (second.finish other).2 := by
  simp only [finish, h.bench.journal]
  exact ⟨.mk hreply h.bench.matrix _, ⟨h.bench.matrix, h.bench.stats, rfl⟩, h.config, h.selected,
    h.matrices, h.snapshots⟩

/-- What a call without nested ones leads to. -/
def outcome : EStateM.Result Fault (Session κ) (Reply κ) → Except Fault (Reply κ) × Session κ
  | .ok reply session => (.ok reply, session)
  | .error fault session => (.error fault, session)

theorem akin_outcome (command : Command) (h : Akin first second) :
    Reply.SameOutcome (outcome (call command first)).1 (outcome (call command second)).1 ∧
      Akin (outcome (call command first)).2 (outcome (call command second)).2 := by
  rcases (respects_call command _ _ h).cases with
    ⟨reply, next, image, hfirst, hsecond, hnext⟩ | ⟨fault, next, image, hfirst, hsecond, hnext⟩
  · rw [hfirst, hsecond]
    exact ⟨.carriedOut (.refl reply), hnext⟩
  · rw [hfirst, hsecond]
    exact ⟨.refused fault, hnext⟩

mutual

-- The recursion is that of the commands: what is nested between a marker and its restoration is run
-- from sessions that are the same but for spare slots, so it leads to such sessions again.

theorem akin_perform (command : Command) {first second : Session κ} (h : Akin first second) :
    Reply.SameOutcome (perform command first).1 (perform command second).1 ∧
      Akin (perform command first).2 (perform command second).2 := by
  have hcall := akin_outcome command h
  cases command with
  | checkpoint body =>
    obtain ⟨hsteps, hended, hnext⟩ := akin_performAll false body (akin_enter h)
    obtain ⟨hreply, hlast⟩ := akin_leave hnext hsteps hended
    exact ⟨.carriedOut hreply, hlast⟩
  | scope body =>
    obtain ⟨hsteps, hended, hnext⟩ := akin_performAll true body (akin_enter h)
    obtain ⟨hreply, hlast⟩ := akin_leave hnext hsteps hended
    exact ⟨.carriedOut hreply, hlast⟩
  | _ => exact hcall

theorem akin_performAll (untilFault : Bool) (commands : List Command) {first second : Session κ}
    (h : Akin first second) :
    List.Forall₂ Step.Akin (performAll untilFault commands first).1
        (performAll untilFault commands second).1 ∧
      (performAll untilFault commands first).2.1 = (performAll untilFault commands second).2.1 ∧
      Akin (performAll untilFault commands first).2.2 (performAll untilFault commands second).2.2 := by
  cases commands with
  | nil => exact ⟨.nil, rfl, h⟩
  | cons command commands =>
    obtain ⟨houtcome, hnext⟩ := akin_perform command h
    simp only [performAll]
    generalize perform command first = left at houtcome hnext ⊢
    generalize perform command second = right at houtcome hnext ⊢
    obtain ⟨_, next⟩ := left
    obtain ⟨_, image⟩ := right
    cases houtcome with
    | refused fault =>
      cases untilFault with
      | true => exact ⟨.nil, rfl, hnext⟩
      | false =>
        obtain ⟨hstep, hfinished⟩ := akin_finish hnext (.refl (.refused fault))
        obtain ⟨hsteps, hended, hlast⟩ := akin_performAll false commands hfinished
        exact ⟨.cons hstep hsteps, hended, hlast⟩
    | carriedOut hreply =>
      obtain ⟨hstep, hfinished⟩ := akin_finish hnext hreply
      obtain ⟨hsteps, hended, hlast⟩ := akin_performAll untilFault commands hfinished
      exact ⟨.cons hstep hsteps, hended, hlast⟩

end

/-- The session with another table in place of its own. -/
def on (session : Session κ) (matrix : Matrix κ) : Session κ :=
  { session with bench := { session.bench with matrix := matrix } }

omit [Cost κ] in
theorem akin_on (session : Session κ) {matrix image : Matrix κ} (h : matrix.Akin image) :
    Akin (session.on matrix) (session.on image) where
  bench := ⟨h, rfl, rfl⟩
  config := rfl
  selected := rfl
  matrices := List.forall₂_same.mpr fun entry _ ↦ ⟨rfl, .refl entry.2⟩
  snapshots := rfl

/-- A table that was cleared has no cell, no count of cells and no history, and from there on every
sequence of commands runs like on a new table of the same shape. -/
theorem exists_new_akin_run [LawfulCost κ] {matrix : Matrix κ} (h : matrix.Reachable) :
    ∃ fresh, Matrix.new matrix.rowSize matrix.columnSize (Cost.dimension κ) = .ok fresh ∧
      matrix.clear.cellCount = 0 ∧ (∀ slot, matrix.clear.cells.get? slot = none) ∧
      matrix.clear.history = [] ∧ ∀ (session : Session κ) (commands : List Command),
        List.Forall₂ Step.Akin ((session.on matrix.clear).run commands)
          ((session.on fresh).run commands) := by
  have hnew := Matrix.new_blank (κ := κ) matrix.rowSize matrix.columnSize false
  have hakin := h.intact.linked.akin_clear hnew
  have hcount : matrix.clear.cellCount = 0 := hakin.view_eq fun _ _ ↦ rfl
  have hvacant (slot : Nat) : matrix.clear.cells.get? slot = none :=
    (matrix.cells.get?_releaseFrom 0 slot).trans (if_pos (Nat.zero_le slot))
  exact ⟨_, hnew, hcount, hvacant, rfl, fun session commands ↦
    (akin_performAll false commands (akin_on session hakin)).1⟩

/-- Of the four slots that the clearance vacates, among them that of a cell whose row and column are
deleted behind a marker, two are filled again, in another order; the markers and the costs are gone. -/
theorem exists_new_akin_run_refilled :
    let start := Workbench.blank SingleCost 2 3 false
    let bench := Operation.afterAll [.insert 0 0, .insert 0 1, .insert 1 1, .insert 1 2,
      .setCost 2 0 7.0, .backup, .delete (.row 0)] start
    let session := Session.start start.matrix Config.full true
    let commands : List Command := [.insert 1 2, .insert 0 0, .counts, .restore, .solve,
      .scope [.delete (.column 0), .snapshot, .delete (.row 0)], .clear, .insert 0 1, .text]
    bench.matrix.cellCount = 4 ∧
      bench.matrix.history = [.deleted (.column 0), .deleted (.row 0), .marker] ∧
      bench.matrix.clear ≠ start.matrix ∧
      List.Forall₂ Step.Akin ((session.on bench.matrix.clear).run commands)
        (session.run commands) := by
  intro start bench session commands
  have hbench : bench.matrix.Reachable := Matrix.reachable_afterAll_blank 2 3 false _
  obtain ⟨hrows, hcolumns, hcells, hhistory, hslots⟩ : bench.matrix.rowSize = 2 ∧
      bench.matrix.columnSize = 3 ∧ bench.matrix.cellCount = 4 ∧
      bench.matrix.history = [.deleted (.column 0), .deleted (.row 0), .marker] ∧
      bench.matrix.clear.cells.slots.size = 4 := by
    decide +kernel
  clear_value bench
  obtain ⟨fresh, hfresh, -, -, -, hrun⟩ := exists_new_akin_run hbench
  rw [hrows, hcolumns, Matrix.new_blank 2 3 false] at hfresh
  obtain rfl := Except.ok.inj hfresh
  exact ⟨hcells, hhistory, fun heq ↦ by simp [heq, start, Workbench.blank, Arena.empty] at hslots,
    hrun session commands⟩

end Session

end SetCover

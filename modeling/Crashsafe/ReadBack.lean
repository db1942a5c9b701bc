import Crashsafe.Simulation

/- Writing a whole run, at creation and by a rebuild, and reading it back. A rebuild from an
   out-of-date history writes a run the full history does not reduce to. -/
namespace Crashsafe
open Rows Replay

section Written
variable {runId : String} {v : RunView} {run : WorkflowRun} {created : WorkflowRunCreatedPayload}

theorem dependencies_written {steps : List StepRecord} (distinct : (steps.map (·.id)).Nodup)
    {step : StepRecord} (member : step ∈ steps) :
    dependencies (dependencyRows runId (steps.map fun s => (s.id, s.dependsOn))) step.id =
      step.dependsOn := by
  induction steps with
  | nil => simp at member
  | cons first rest ih =>
    simp only [List.map_cons, List.nodup_cons] at distinct
    have split : dependencies (dependencyRows runId ((first :: rest).map fun s => (s.id, s.dependsOn)))
        step.id = (if first.id = step.id then first.dependsOn else []) ++
          dependencies (dependencyRows runId (rest.map fun s => (s.id, s.dependsOn))) step.id := by
      simp only [dependencies, dependencyRows, List.map_cons, List.flatMap_cons, List.filter_append,
        List.map_append]
      congr 1
      by_cases here : first.id = step.id <;> simp [here, List.filter_map, Function.comp_def]
    rw [split]
    rcases List.mem_cons.mp member with rfl | later
    · have none : dependencies (dependencyRows runId (rest.map fun s => (s.id, s.dependsOn)))
          step.id = [] := by
        rw [List.eq_nil_iff_forall_not_mem]
        intro d inside
        obtain ⟨row, present, named, _⟩ := mem_dependencies.mp inside
        simp only [dependencyRows, List.mem_flatMap, List.mem_map] at present
        obtain ⟨_, ⟨other, otherMember, rfl⟩, _, _, rfl⟩ := present
        exact distinct.1 (List.mem_map.mpr ⟨other, otherMember, named⟩)
      simp [none]
    · have differs : first.id ≠ step.id := fun same =>
        distinct.1 (List.mem_map.mpr ⟨step, later, same.symm⟩)
      simp [differs, ih distinct.2 later]

theorem sound_positions {payload : WorkflowRunCreatedPayload} {events : List WorkflowRunEvent}
    (sound : FoldSound payload events run) :
    run.steps.Pairwise fun a b => a.position < b.position := by
  obtain ⟨first, _, _, creation, _⟩ := sound.bracketed.creation
  obtain ⟨_, positions, _⟩ := validate_definitions_ok creation.valid
  rw [← sound.snapshots, List.map_map] at positions
  have sorted : ((List.range run.steps.length).map Int.ofNat).Pairwise (· < ·) := by
    rw [List.pairwise_map]
    exact List.pairwise_lt_range.imp fun lt => by simpa using lt
  rw [List.length_map] at positions
  rw [← positions, List.pairwise_map] at sorted
  exact sorted

/-- Reading the rows a folded run was written as gives the run. -/
theorem read_back {payload : WorkflowRunCreatedPayload} {events : List WorkflowRunEvent}
    (sound : FoldSound payload events run) :
    run = workflowRunFromRows (rebuiltRunRow run created)
      (orderBy (·.position) (projectionOf run created v).steps)
      (dependencies (projectionOf run created v).dependencies) := by
  have sorted : orderBy (·.position) (run.steps.map rebuiltStepRow) =
      run.steps.map rebuiltStepRow := by
    refine orderBy_sorted (List.pairwise_map.mpr ?_)
    exact (sound_positions sound).imp le_of_lt
  have steps : (run.steps.map rebuiltStepRow).map (stepFromRow (dependencies
      (dependencyRows run.runId (run.steps.map fun step => (step.id, step.dependsOn))))) =
        run.steps := by
    rw [List.map_map]
    refine (List.map_congr_left fun step member => ?_).trans (List.map_id run.steps)
    simp only [Function.comp, stepFromRow, rebuiltStepRow, id_eq,
      dependencies_written sound.distinct member]
  simp only [projectionOf, workflowRunFromRows, sorted, steps, rebuiltRunRow]

theorem written_consistent
    (folded : foldHistory runId v.events = .ok (some run, v.events.length + 1))
    (settled : settle run = .ok run) : Consistent runId (projectionOf run created v) run := by
  obtain ⟨_, _, _, _, sound⟩ := fold_state_sound folded
  exact ⟨⟨rebuiltRunRow run created, rfl, read_back sound⟩, folded, settled⟩

end Written

section Creation
variable {runId defaultToolKey : String} {definition : WorkflowDefinition}
  {toolKey : Option String} {now : Datetime}

theorem materialized_ids (runId : String) (steps : List WorkflowStep) (tool : String) :
    (materialize runId tool steps).map (·.id) = steps.map (·.id) := by
  calc (materialize runId tool steps).map (·.id)
      = (steps.zipIdx.map Prod.fst).map (·.id) := by
        simp only [materialize, List.map_map]
        rfl
    _ = steps.map (·.id) := by rw [List.zipIdx_map_fst]

theorem materialized_positions (runId : String) (steps : List WorkflowStep) (tool : String) :
    (materialize runId tool steps).map (·.position) =
      (List.range (materialize runId tool steps).length).map Int.ofNat := by
  calc (materialize runId tool steps).map (·.position)
      = (steps.zipIdx.map Prod.snd).map Int.ofNat := by
        simp only [materialize, List.map_map]
        rfl
    _ = (List.range (materialize runId tool steps).length).map Int.ofNat := by
        rw [List.zipIdx_map_snd, ← List.range_eq_range']
        simp [materialize]

theorem materialized_depends (runId : String) (steps : List WorkflowStep) (tool : String) :
    dependsOnOf (materialize runId tool steps) = stepDependsOn steps := by
  funext i
  have looked : steps.find? (fun step => step.id = i) =
      (steps.zipIdx.find? ((fun step => decide (step.id = i)) ∘ Prod.fst)).map Prod.fst := by
    rw [← List.find?_map, List.zipIdx_map_fst]
  simp only [dependsOnOf, stepDependsOn, materialize, List.find?_map, looked, Function.comp_def]
  cases steps.zipIdx.find? fun x => decide (x.1.id = i) <;> rfl

theorem materialized_mem {steps : List WorkflowStep} {tool : String} {d : StepDefinition}
    (member : d ∈ materialize runId tool steps) :
    ∃ step ∈ steps, d.id = step.id ∧ d.dependsOn = step.dependsOn ∧
      d.operation = step.request.operation ∧ d.request = step.request.modelDump ∧
      d.operationKey = operationKey runId step.id := by
  simp only [materialize, List.mem_map] at member
  obtain ⟨⟨step, position⟩, inside, rfl⟩ := member
  exact ⟨step, List.fst_mem_of_mem_zipIdx inside, rfl, rfl, rfl, rfl, rfl⟩

/-- Submitted steps pass the reducer's own validation once they are materialized. -/
theorem materialized_valid (runId : String) (definition : WorkflowDefinition) (tool : String) :
    validateDefinitions runId (materialize runId tool definition.steps) = .ok () := by
  obtain ⟨distinct, checks, order, ordered, only, covers⟩ := validate_graph_ok definition.graph
  have ids := materialized_ids runId definition.steps tool
  have nonempty : materialize runId tool definition.steps ≠ [] := by
    intro empty
    have bound := definition.stepsLength.1
    have length := congrArg List.length empty
    simp only [materialize, List.length_map, List.length_zipIdx, List.length_nil] at length
    omega
  refine validate_definitions_accepts nonempty (materialized_positions runId definition.steps tool)
    (ids ▸ distinct) ?_ (materialized_depends runId definition.steps tool ▸ ordered) (ids ▸ only)
    (ids ▸ covers)
  intro d member
  obtain ⟨step, inside, sameId, sameDepends, _, _, key⟩ := materialized_mem member
  obtain ⟨unique, notSelf, known⟩ := check_step_ok.mp (checks step inside)
  rw [ids]
  refine check_definition_ok.mpr ⟨?_, sameDepends ▸ unique, ?_, sameDepends ▸ known⟩
  · rw [key, sameId]
    rfl
  · rw [sameId, sameDepends]
    exact notSelf

theorem creation_folds (runId : String) (definition : WorkflowDefinition) (toolKey : Option String)
    (defaultToolKey : String) (now : Datetime) :
    foldHistory runId
      [creationEvent runId (createdPayload definition toolKey defaultToolKey runId) now] =
        .ok (some (startedRun runId
          (creationEvent runId (createdPayload definition toolKey defaultToolKey runId) now)
          (createdPayload definition toolKey defaultToolKey runId)), 2) := by
  have creation : IsCreation runId
      (creationEvent runId (createdPayload definition toolKey defaultToolKey runId) now)
      (createdPayload definition toolKey defaultToolKey runId) :=
    ⟨rfl, rfl, rfl, rfl, ⟨rfl, rfl⟩, materialized_valid runId definition _⟩
  exact (replay_singleton _ _).trans (reduce_creation rfl creation)

/-- A run just created reads as the run its history folds to. -/
theorem creation_consistent {db db' : Database} (absent : db.view runId = RunView.empty)
    (h : createWorkflowRun db definition toolKey defaultToolKey runId now = .ok db') :
    ∃ run, Consistent runId (db'.view runId) run ∧ run.status = .running := by
  obtain ⟨written, _⟩ := create_ok absent h
  rw [written]
  refine ⟨_, written_consistent (creation_folds runId definition toolKey defaultToolKey now) ?_, rfl⟩
  have nonempty := definition.stepsLength.1
  refine settle_unfinished ?_ ?_
  · intro step inside
    obtain ⟨d, _, rfl⟩ := List.mem_map.mp inside
    simp [pendingStep]
  · have some : (createdPayload definition toolKey defaultToolKey runId).steps ≠ [] := by
      intro empty
      have length := congrArg List.length empty
      simp only [createdPayload, materialize, List.length_map, List.length_zipIdx, List.length_nil]
        at length
      omega
    obtain ⟨d, member⟩ := List.exists_mem_of_ne_nil _ some
    exact ⟨_, List.mem_map_of_mem member, by simp [pendingStep]⟩

end Creation

section Progress
variable {runId : String} {events later : List WorkflowRunEvent} {run next : WorkflowRun}

/- What every accepted event raises: an attempt starts, ends, or the run does. -/
def stepProgress (step : StepRecord) : Int :=
  2 * step.attempts + if step.status = .intentRecorded then 0 else 1

def runProgress (run : WorkflowRun) : Int :=
  1 + (run.steps.map stepProgress).sum + if run.status = .running then 0 else 1

def foldProgress (state : Option WorkflowRun × Int) : Int :=
  match state.1 with
  | none => 0
  | some run => runProgress run

theorem sum_map_set {steps : List StepRecord} {i : Nat} {step after : StepRecord}
    (f : StepRecord → Int) (present : steps[i]? = some step) :
    ((steps.set i after).map f).sum = (steps.map f).sum - f step + f after := by
  induction steps generalizing i with
  | nil => simp at present
  | cons first rest ih =>
    cases i with
    | zero =>
      simp only [List.getElem?_cons_zero, Option.some.injEq] at present
      subst present
      simp only [List.set_cons_zero, List.map_cons, List.sum_cons]
      omega
    | succ i =>
      simp only [List.getElem?_cons_succ] at present
      simp only [List.set_cons_succ, List.map_cons, List.sum_cons, ih present]
      omega

theorem advance_raises {steps : List StepRecord} {event : WorkflowRunEvent} {step after : StepRecord}
    (h : StepAdvance steps event step after) : stepProgress step < stepProgress after := by
  cases h with
  | attemptStarted =>
    simp only [stepProgress, ↓reduceIte]
    split <;> omega
  | retryScheduled _ _ _ active | completed _ _ _ active | failed _ _ _ active =>
    simp [stepProgress, active]

theorem event_raises (state state' : Option WorkflowRun × Int) (event : WorkflowRunEvent)
    (taken : reduceEvent runId state event = .ok state') : foldProgress state < foldProgress state' := by
  obtain ⟨_, _, _, run', result, move⟩ := reduce_event_ok taken
  simp only [foldProgress, result]
  rcases move with ⟨created, first, _, rfl⟩ | ⟨run, current, running, advance⟩
  · have pending : ∀ d ∈ created.steps,
        (stepProgress ∘ pendingStep runId event.occurredAt) d = 1 := by
      intro d _
      simp [stepProgress, pendingStep]
    have total : 0 ≤ ((startedRun runId event created).steps.map stepProgress).sum := by
      simp only [startedRun, List.map_map]
      rw [List.map_congr_left pending]
      simp
    simp only [first, runProgress, startedRun, ↓reduceIte] at total ⊢
    omega
  · simp only [current]
    cases advance with
    | completed => simp [runProgress, running]
    | failed => simp [runProgress, running]
    | step index step after stepId named found advance =>
      obtain ⟨present, _⟩ := find_step_with_index_ok found
      have raised := advance_raises advance
      simp only [runProgress, sum_map_set stepProgress present]
      omega

/-- A history and a proper extension of it never fold to the same run. -/
theorem extension_differs {a b : Int} (folded : foldHistory runId events = .ok (some run, a))
    (extended : foldHistory runId (events ++ later) = .ok (some next, b)) (grown : later ≠ []) :
    run ≠ next := by
  intro same
  obtain ⟨middle, first, rest⟩ := replay_append_ok.mp extended
  rw [show replay (reduceEvent runId) (none, 1) events = _ from folded] at first
  cases first
  have raised := replay_measure (m := foldProgress) (fun s e t => event_raises s t e) rest
  have positive := List.length_pos_of_ne_nil grown
  simp only [foldProgress, same] at raised
  omega

end Progress

section Rebuild
variable {runId : String} {db db' : Database} {rebuilt : WorkflowRun}
  {created : WorkflowRunCreatedPayload} {seen later : List WorkflowRunEvent}

theorem consistent_leases {v : RunView} {run : WorkflowRun} (h : Consistent runId v run)
    (leases : List WorkflowRunLease) : Consistent runId { v with leases := leases } run :=
  ⟨h.row, h.folded, h.settled⟩

/-- What a rebuild that read `seen` holds in its hands. -/
theorem read_history (runIds : ∀ e ∈ seen, e.runId = runId)
    (read : reduceWorkflowRunHistory seen = .ok rebuilt) :
    foldHistory runId seen = .ok (some rebuilt, seen.length + 1) ∧ settle rebuilt = .ok rebuilt ∧
      rebuilt.runId = runId ∧ ∃ payload, FoldSound payload seen rebuilt := by
  obtain ⟨first, rest, last, shape, folded, settled⟩ := reduce_history_ok.mp read
  have firstRun : first.runId = runId := runIds first (by simp [shape])
  rw [firstRun] at folded
  obtain ⟨count, _, named, payload, sound⟩ := fold_state_sound folded
  simp only at count
  rw [count] at folded
  exact ⟨folded, settled, named, payload, sound⟩

/-- A rebuild leaves projection and history equal exactly when nothing was appended since
    its first read. -/
theorem rebuild_consistent_iff (runIds : ∀ e ∈ (db.view runId).events, e.runId = runId)
    (grown : (db.view runId).events = seen ++ later)
    (read : reduceWorkflowRunHistory seen = .ok rebuilt)
    (h : rebuildProjection db runId rebuilt created = .ok db') :
    (∃ run, Consistent runId (db'.view runId) run) ↔ later = [] := by
  have seenIds : ∀ e ∈ seen, e.runId = runId := fun e member =>
    runIds e (by rw [grown]; exact List.mem_append_left _ member)
  obtain ⟨folded, settled, named, payload, sound⟩ := read_history seenIds read
  subst named
  obtain ⟨written, _⟩ := rebuild_ok sound.stepRunIds h
  rw [written]
  constructor
  · rintro ⟨run, ⟨row, rows, same⟩, full, _⟩
    simp only [projectionOf, List.cons.injEq, and_true] at rows
    subst rows
    have reads : run = rebuilt := same.trans (read_back (v := db.view rebuilt.runId) sound).symm
    subst reads
    by_contra more
    have whole : foldHistory run.runId (db.view run.runId).events = _ := full
    rw [grown] at whole
    exact extension_differs folded whole more rfl
  · intro none
    rw [none, List.append_nil] at grown
    rw [← grown] at folded
    exact ⟨rebuilt, consistent_leases (written_consistent folded settled) []⟩

end Rebuild

section Ended
variable {runId : String} {v w : RunView} {run : WorkflowRun} {row : StepRow} {now : Datetime}
  {write : Write}

/-- Nothing the storage appends to a run that has ended is accepted by the reducer. -/
theorem move_ended (h : Consistent runId v run) (ended : run.status ≠ .running)
    (move : RunMove runId v row now write w) : ¬ ∃ next, Consistent runId w next := by
  rintro ⟨next, _, folded, _⟩
  obtain ⟨first, rest, shape⟩ := move_extends_events move
  rw [shape] at folded
  obtain ⟨middle, before, after⟩ := replay_append_ok.mp folded
  rw [show replay (reduceEvent runId) (none, 1) v.events = _ from h.folded] at before
  cases before
  obtain ⟨_, taken, _⟩ := replay_cons_ok.mp after
  obtain ⟨_, _, _, _, _, created | advanced⟩ := reduce_event_ok taken
  · obtain ⟨_, none, _⟩ := created
    cases none
  · obtain ⟨_, current, running, _⟩ := advanced
    cases current
    exact ended running

end Ended

end Crashsafe

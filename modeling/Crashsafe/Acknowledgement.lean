import Crashsafe.Api

/- What a 201 acknowledges. The definition that was submitted is what every later read of the run
   shows, wherever transitions and rebuilds fall between the SELECTs. -/
namespace Crashsafe
open Rows Replay Execution

/- A step as its row has it: the dependencies have rows of their own. -/
def bareDefinition (d : StepDefinition) : StepDefinition := { d with dependsOn := [] }

/- The rows of a run carry what its creation event snapshots. -/
structure KeepsDefinition (runId : String) (created : WorkflowRunCreatedPayload) (v : RunView) : Prop where
  first : ∃ e, v.events.head? = some e ∧ e.payload = some (.workflowRunCreated created)
  named : ∀ row ∈ v.runs, row.name = created.name
  steps : v.steps.map immutable = created.steps.map fun d => (runId, bareDefinition d)
  dependencies : v.dependencies =
    dependencyRows runId (created.steps.map fun d => (d.id, d.dependsOn))

section Kept
variable {d : Deployment} {allowed : State → Action → Prop} {s t : State} {a : Action}
  {runId : String} {created : WorkflowRunCreatedPayload} {v w : RunView} {run : WorkflowRun}
  {events : List WorkflowRunEvent} {last : Int}

theorem fold_named (folded : foldHistory runId events = .ok (some run, last)) :
    ∃ e created, events.head? = some e ∧ e.payload = some (.workflowRunCreated created) ∧
      run.name = created.name := by
  refine (replay_invariant (P := fun (seen : List WorkflowRunEvent)
    (state : Option WorkflowRun × Int) => (state.1 = none → seen = []) ∧
      ∀ run, state.1 = some run → ∃ e created, seen.head? = some e ∧
        e.payload = some (.workflowRunCreated created) ∧ run.name = created.name)
    ⟨fun _ => rfl, fun _ none => by cases none⟩ ?_ folded).2 run rfl
  intro seen e before after ⟨empty, known⟩ taken
  obtain ⟨_, _, _, next, same, move⟩ := reduce_event_ok taken
  refine ⟨fun none => absurd (same.symm.trans none) nofun, fun run' result => ?_⟩
  obtain rfl : next = run' := Option.some.inj (same.symm.trans result)
  rcases move with ⟨created, none, creation, rfl⟩ | ⟨run, current, _, advance⟩
  · rw [empty none]
    exact ⟨e, created, rfl, creation.payload, rfl⟩
  · obtain ⟨first, created, head, payload, name⟩ := known run current
    have kept : next.name = run.name := by cases advance <;> rfl
    exact ⟨first, created, by rw [List.head?_append, head, Option.some_or], payload, kept.trans name⟩

theorem definition_move {row : StepRow} {now : Datetime} {write : Write}
    (carried : KeepsDefinition runId created v) (move : RunMove runId v row now write w) : KeepsDefinition runId created w := by
  obtain ⟨first, rest, grown⟩ := move_extends_events move
  obtain ⟨e, head, payload⟩ := carried.first
  refine ⟨⟨e, head_grown head ⟨first :: rest, grown.symm⟩, payload⟩, fun run member => ?_, ?_, ?_⟩
  · rcases move_runs move with runs | runs | runs
    · exact carried.named run (runs ▸ member)
    · rw [runs] at member
      obtain ⟨old, inside, rfl⟩ := List.mem_map.mp member
      exact carried.named old inside
    · rw [runs] at member
      obtain ⟨old, inside, rfl⟩ := List.mem_map.mp member
      exact carried.named old inside
  · rw [move_steps move, map_updateWhere fun other _ => write_keeps_immutable row now write other]
    exact carried.steps
  · rw [move_dependencies move]
    exact carried.dependencies

/-- A projection written from a run whose steps are the creation's carries it. -/
theorem definition_written {rewritten : WorkflowRunCreatedPayload}
    (first : ∃ e, v.events.head? = some e ∧ e.payload = some (.workflowRunCreated created))
    (named : run.name = created.name) (here : run.runId = runId)
    (stepRuns : ∀ step ∈ run.steps, step.runId = runId)
    (snapshots : run.steps.map snapshot = created.steps) :
    KeepsDefinition runId created (projectionOf run rewritten v) := by
  refine ⟨first, fun row member => ?_, ?_, ?_⟩
  · rw [List.mem_singleton.mp member]
    exact named
  · rw [← snapshots, projectionOf, List.map_map, List.map_map]
    refine List.map_congr_left fun step member => ?_
    exact Prod.ext (stepRuns step member) rfl
  · rw [← snapshots, projectionOf, here, List.map_map]
    rfl

theorem definition_rebuilt {history : List WorkflowRunEvent} (rewritten : WorkflowRunCreatedPayload)
    (carried : KeepsDefinition runId created v) (runIds : ∀ e ∈ history, e.runId = runId)
    (grown : history <+: v.events) (reduced : reduceWorkflowRunHistory history = .ok run) :
    KeepsDefinition runId created (projectionOf run rewritten v) := by
  obtain ⟨folded, _, here, payload, sound⟩ := read_history runIds reduced
  obtain ⟨e, named', head, payload', name⟩ := fold_named folded
  obtain ⟨first, rest, shape, creation, _⟩ := sound.bracketed.creation
  obtain ⟨e', head', payload''⟩ := carried.first
  have heads : e = e' := Option.some.inj ((head_grown head grown).symm.trans head')
  have firsts : first = e := by
    rw [shape] at head
    exact Option.some.inj head
  subst heads firsts
  have payloads : payload = created := by simpa using creation.payload.symm.trans payload''
  have names : named' = created := by simpa using payload'.symm.trans payload''
  subst payloads names
  exact definition_written carried.first name here
    (fun step member => (sound.stepRunIds step member).trans here) sound.snapshots

theorem definition_effect (coherent : Coherent s) (effect : Effect d s a t)
    (carried : KeepsDefinition runId created (s.db.view runId)) :
    KeepsDefinition runId created (t.db.view runId) := by
  cases effect_view coherent effect runId with
  | same view => exact view ▸ carried
  | created definition toolKey defaultToolKey now absent done =>
    obtain ⟨e, head, _⟩ := carried.first
    rw [absent] at head
    cases head
  | moved row now write member move mover => exact definition_move carried move
  | granted ownerId now claim granted here =>
    rw [granted_view granted runId]
    exact ⟨carried.first, carried.named, carried.steps, carried.dependencies⟩
  | touched pairs rest =>
    rw [rest]
    exact ⟨carried.first, carried.named, carried.steps, carried.dependencies⟩
  | rebuilt p history rebuilt rewritten acted was done =>
    have held : (s.pc p).reads? = some (runId, history, rebuilt) := by rw [was]; rfl
    obtain ⟨reduced, grown⟩ := coherent.reads p runId history rebuilt held
    have runIds : ∀ e ∈ history, e.runId = runId := fun e member =>
      (coherent.tidy runId).runIds e (grown.subset member)
    have written := definition_rebuilt rewritten carried runIds grown reduced
    rw [(rebuilt_views coherent held done).1]
    exact ⟨written.first, written.named, written.steps, written.dependencies⟩

theorem definition_later (reached : Reachable (step d) allowed State.initial s)
    (later : Reachable (step d) allowed s t) (carried : KeepsDefinition runId created (s.db.view runId)) :
    KeepsDefinition runId created (t.db.view runId) := by
  refine reachable_invariant (P := fun t => KeepsDefinition runId created (t.db.view runId)) carried ?_ later
  intro t a u before carried may taken
  exact definition_effect (coherent_reachable (reachable_trans reached before)) (step_effect taken) carried

theorem definition_created {definition : WorkflowDefinition} {toolKey : Option String}
    {defaultToolKey : String} {now : Datetime} (coherent : Coherent s)
    (done : createWorkflowRun s.db definition toolKey defaultToolKey runId now = .ok t.db) :
    KeepsDefinition runId (createdPayload definition toolKey defaultToolKey runId) (t.db.view runId) := by
  have absent := (coherent.tidy runId).absent (create_absent done)
  rw [(create_ok absent done).1]
  refine definition_written ⟨_, rfl, rfl⟩ rfl rfl (fun step member => ?_) ?_
  · obtain ⟨d, _, rfl⟩ := List.mem_map.mp member
    rfl
  · rw [startedRun, List.map_map]
    exact (List.map_congr_left fun d _ => rfl).trans (List.map_id _)

end Kept

section Read
variable {runId : String} {created : WorkflowRunCreatedPayload} {v : RunView}

theorem definition_sorted (valid : validateDefinitions runId created.steps = .ok ())
    (carried : KeepsDefinition runId created v) : orderBy (·.position) v.steps = v.steps := by
  obtain ⟨_, positions, _⟩ := validate_definitions_ok valid
  have same : v.steps.map (·.position) = created.steps.map (·.position) := by
    have stored := congrArg (List.map fun pair : String × StepDefinition => pair.2.position) carried.steps
    rw [List.map_map, List.map_map] at stored
    exact stored
  refine orderBy_sorted (List.pairwise_map.mp ?_)
  rw [same, positions, List.pairwise_map]
  exact List.pairwise_lt_range.imp fun less => Int.ofNat_le.mpr (le_of_lt less)

theorem definition_dependencies (valid : validateDefinitions runId created.steps = .ok ())
    {definition : StepDefinition} (member : definition ∈ created.steps) :
    dependencies (dependencyRows runId (created.steps.map fun d => (d.id, d.dependsOn))) definition.id =
      definition.dependsOn := by
  have distinct : ((created.steps.map (pendingStep runId 0)).map (·.id)).Nodup := by
    rw [List.map_map]
    exact valid_ids_distinct valid
  have stepped : pendingStep runId 0 definition ∈ created.steps.map (pendingStep runId 0) :=
    List.mem_map_of_mem member
  have written : dependencies (dependencyRows runId ((created.steps.map (pendingStep runId 0)).map
      fun s => (s.id, s.dependsOn))) definition.id = definition.dependsOn :=
    dependencies_written distinct stepped
  rw [List.map_map] at written
  exact written

/-- Steps of one moment and dependencies of another read as the definitions submitted. -/
theorem definition_read {w : RunView} (valid : validateDefinitions runId created.steps = .ok ())
    (steps : KeepsDefinition runId created v) (edges : KeepsDefinition runId created w) :
    ((orderBy (·.position) v.steps).map (stepFromRow (dependencies w.dependencies))).map snapshot =
      created.steps := by
  rw [definition_sorted valid steps, edges.dependencies, List.map_map]
  have bare : (v.steps.map immutable).map (fun pair => { pair.2 with
      dependsOn := dependencies (dependencyRows runId (created.steps.map fun d => (d.id, d.dependsOn)))
        pair.2.id }) = created.steps := by
    rw [steps.steps, List.map_map]
    refine (List.map_congr_left fun definition member => ?_).trans (List.map_id _)
    simp only [Function.comp, bareDefinition, definition_dependencies valid member, id]
  rw [List.map_map] at bare
  exact bare

end Read

section Answers
variable {d : Deployment} {s t first second third : State} {definition : WorkflowDefinition}
  {toolKey : Option String} {defaultToolKey runId : String} {now : Datetime}

/- The run that is answered is the one that was submitted. -/
structure AsSubmitted (definition : WorkflowDefinition) (tool runId : String) (now : Datetime)
    (run : WorkflowRun) : Prop where
  named : run.runId = runId
  name : run.name = definition.name
  createdAt : run.createdAt = now
  steps : run.steps.map snapshot = materialize runId tool definition.steps

/-- Once its creation has committed, a run is answered as it was submitted, to the request that
    created it and to every read, whatever is committed between the SELECTs. -/
theorem acknowledged_as_submitted (before : Reachable (step d) anyStep State.initial s)
    (reached : Reachable (step d) anyStep State.initial t)
    (done : createWorkflowRun s.db definition toolKey defaultToolKey runId now = .ok t.db)
    (toFirst : Reachable (step d) anyStep t first) (toSecond : Reachable (step d) anyStep first second)
    (toThird : Reachable (step d) anyStep second third) :
    ∃ run, Api.createWorkflowRun (createWorkflowRun s.db definition toolKey defaultToolKey runId now)
        first.db second.db third.db runId = .success 201 run ∧
      Api.getWorkflowRun first.db second.db third.db runId = .success 200 run ∧
      AsSubmitted definition (selectedTool defaultToolKey toolKey) runId now run := by
  have there := exists_later reached toFirst (exists_created (coherent_reachable before) done)
  have reachedFirst := reachable_trans reached toFirst
  have reachedSecond := reachable_trans reachedFirst toSecond
  have atFirst := definition_later reached toFirst (definition_created (coherent_reachable before) done)
  have atSecond := definition_later reachedFirst toSecond atFirst
  have atThird := definition_later reachedSecond toThird atSecond
  have valid := materialized_valid runId definition (selectedTool defaultToolKey toolKey)
  obtain ⟨row, rest, rows⟩ := List.exists_cons_of_ne_nil there.runs
  have member : row ∈ (first.db.view runId).runs := by simp [rows]
  have born := born_reachable reachedFirst runId row member
  have rows : first.db.runsOf runId = row :: rest := rows
  have read : getWorkflowRunAcross first.db second.db third.db runId =
      .ok (workflowRunFromRows row (orderBy (·.position) (second.db.stepsOf runId))
        (dependencies (third.db.dependenciesOf runId))) := by
    simp only [getWorkflowRunAcross, rows]
  refine ⟨workflowRunFromRows row (orderBy (·.position) (second.db.stepsOf runId))
    (dependencies (third.db.dependenciesOf runId)), ?_, ?_, (mem_ofKey.mp member).2,
    atFirst.named row member, ?_, definition_read valid atSecond atThird⟩
  · simp only [Api.createWorkflowRun, done, read]
  · simp only [Api.getWorkflowRun, read, Answer.orNotFound]
  · exact Option.some_inj.mp (born.symm.trans there.born)

def firstCreated : List Action := [.beginCreate 0 "a1" onboarding none 1, .commitCreate 0]

def chargeBegun : List Action :=
  [.beginClaim 0 2, .commitClaim 0 0, .beginRecord 0 3, .commitRecord 0 4, .send 0]

def chargeEndedRebuilt : List Action :=
  chargeCompletion ++ [.readHistory 1 "a1", .readCreation 1, .commitRebuild 1]

theorem created_at_once {db : Database}
    (created : createWorkflowRun emptyDatabase onboarding none "mock-tool" "a1" 1 = .ok db) :
    run (step sharedWorker) State.initial firstCreated = some
      { (State.initial.goto 0 (.creating "a1" onboarding none 1)).goto 0 .idle with db := db } := by
  change run (step sharedWorker) (State.initial.goto 0 (.creating "a1" onboarding none 1))
    [.commitCreate 0] = _
  have made : createWorkflowRun (State.initial.goto 0 (.creating "a1" onboarding none 1)).db onboarding
      none (sharedWorker.defaultToolKey 0) "a1" 1 = .ok db := created
  simp only [run, step, goto_same, made]
  rfl

/-- The run is charged before the steps are read and rebuilt before the dependencies are. -/
theorem charged_run_as_submitted : ∃ t first second run',
    run (step sharedWorker) State.initial firstCreated = some t ∧
      run (step sharedWorker) t chargeBegun = some first ∧
      run (step sharedWorker) first chargeEndedRebuilt = some second ∧
      Api.getWorkflowRun t.db first.db second.db "a1" = .success 200 run' ∧
      AsSubmitted onboarding "mock-tool" "a1" 1 run' := by
  have runs : ((run (step sharedWorker) State.initial firstCreated).bind fun t =>
      (run (step sharedWorker) t chargeBegun).bind fun first =>
        (run (step sharedWorker) first chargeEndedRebuilt).map fun _ =>
          (createWorkflowRun emptyDatabase onboarding none "mock-tool" "a1" 1).toOption.isSome) =
      some true := by
    decide +kernel
  obtain ⟨t, ran, runs⟩ := Option.bind_eq_some_iff.mp runs
  obtain ⟨first, begun, runs⟩ := Option.bind_eq_some_iff.mp runs
  obtain ⟨second, ended, made⟩ := Option.map_eq_some_iff.mp runs
  obtain ⟨db, made⟩ := Option.isSome_iff_exists.mp made
  have created : createWorkflowRun State.initial.db onboarding none "mock-tool" "a1" 1 = .ok db :=
    to_option_some.mp made
  obtain rfl := Option.some.inj ((created_at_once created).symm.trans ran)
  have moments (actions : List Action) {s t : State}
      (ran : run (step sharedWorker) s actions = some t) : Reachable (step sharedWorker) anyStep s t :=
    reachable_run actions (fun _ _ _ => trivial) .start ran
  obtain ⟨run', _, read, submitted⟩ := acknowledged_as_submitted .start (moments _ ran) created .start
    (moments _ begun) (moments _ ended)
  exact ⟨_, first, second, run', ran, begun, ended, read, submitted⟩

end Answers

end Crashsafe

import Crashsafe.Projection

/- The storage's transitions are simulated by the reducer: on a running run every committed
   transition keeps the rows equal to the folded history. -/
namespace Crashsafe
open Rows Replay

section Transitions
variable {runId : String} {v w : RunView} {run : WorkflowRun} {row : StepRow} {now : Datetime}
  {write : Write} {set : StepRow → StepRow}

theorem mem_set_rows (h : Consistent runId v run) (member : row ∈ v.steps) {other : StepRow}
    (inside : other ∈ (v.setStep row.id set).steps) :
    other = set row ∨ (other ∈ v.steps ∧ other.id ≠ row.id) := by
  obtain ⟨old, present, same⟩ := mem_updateWhere.mp inside
  split at same
  · rename_i here
    simp only [decide_eq_true_eq] at here
    left
    rw [← same, consistent_row_unique h present member here]
  · rename_i elsewhere
    subst same
    exact .inr ⟨present, by simpa using elsewhere⟩

theorem set_row_mem (member : row ∈ v.steps) : set row ∈ (v.setStep row.id set).steps :=
  mem_updateWhere.mpr ⟨row, member, by simp⟩

theorem running_unfailed (h : Consistent runId v run) (running : run.status = .running)
    (member : row ∈ v.steps) : row.status ≠ .failed :=
  ((settle_ok.mp h.settled).2 running).1 _ (row_read h member)

theorem running_runnable (h : Consistent runId v run) (running : run.status = .running)
    (member : row ∈ v.steps) (unfinished : row.status ≠ .completed) :
    row.status ∈ runnableStatuses := by
  have unfailed := running_unfailed h running member
  cases status : row.status <;> simp_all [runnableStatuses]

/-- A transition that leaves the run running. -/
theorem step_event_consistent (h : Consistent runId v run) (running : run.status = .running)
    (member : row ∈ v.steps) {payload : EventPayload} {attempt version : Int}
    (supported : version ∈ supportedEventSchemaVersions)
    (keeps : ∀ r, immutable (set r) = immutable r)
    (advanced : advanceStep run
      (eventOf runId v.events payload now (some row.id) (some attempt) version) attempt
      (stepFromRow (dependencies v.dependencies) row) payload =
        .ok (stepFromRow (dependencies v.dependencies) (set row)))
    (sound : (set row).status ≠ .failed)
    (unfinished : ∃ other ∈ (v.setStep row.id set).steps, other.status ≠ .completed) :
    Consistent runId
      ((v.append runId payload now (some row.id) (some attempt) version).setStep row.id set)
      { run with steps := readSteps (v.setStep row.id set) } := by
  obtain ⟨runRow, rows, same⟩ := h.row
  refine ⟨⟨runRow, rows, ?_⟩, ?_, settle_unfinished ?_ ?_⟩
  · rw [same]
    rfl
  · refine (fold_step_event h running member supported keeps advanced).trans ?_
    simp [RunView.setStep, RunView.append]
  · intro step inside
    obtain ⟨other, present, rfl⟩ := List.mem_map.mp inside
    rcases mem_set_rows h member (mem_orderBy.mp present) with rfl | ⟨old, _⟩
    · exact sound
    · exact running_unfailed h running old
  · obtain ⟨other, present, open_end⟩ := unfinished
    exact ⟨_, List.mem_map_of_mem (mem_orderBy.mpr present), open_end⟩

theorem attempt_consistent (h : Consistent runId v run) (running : run.status = .running)
    (member : row ∈ v.steps) {ownerId : Option String} {fenceToken : Option Int}
    (runnable : row.status ∈ runnableStatuses) (ready : ¬ v.Blocked row.id)
    (paired : ownerId.isSome = fenceToken.isSome) :
    ∃ next, Consistent runId ((v.append runId (attemptPayload row ownerId fenceToken) now
      (some row.id) (some (row.attempts + 1))
      (if ownerId.isSome then attemptEventSchemaVersion else eventSchemaVersion)).setStep row.id
        (setAttempt (row.attempts + 1) now)) next := by
  refine ⟨_, step_event_consistent h running member ?_ (fun _ => rfl) ?_ (by simp [setAttempt])
    ⟨_, set_row_mem member, by simp [setAttempt]⟩⟩
  · split
    · exact supported_version (.inr (.inl rfl))
    · exact supported_version (.inl rfl)
  · refine start_attempt_accepts ?_ runnable rfl (ready_read h member ready) ⟨rfl, Json.py_eq_self _, rfl⟩
    intro version
    cases ownerId with
    | none => simp [eventOf, eventSchemaVersion, attemptEventSchemaVersion] at version
    | some owner => exact ⟨rfl, paired.symm⟩

theorem active_read {deps : String → List String} (active : row.status = .intentRecorded) :
    requireCurrentAttempt (stepFromRow deps row) row.attempts .intentRecorded = .ok () :=
  require_current_attempt_ok.mpr ⟨active, rfl⟩

theorem retry_consistent (h : Consistent runId v run) (running : run.status = .running)
    (member : row ∈ v.steps) {error : String} {nextAttemptAt : Datetime}
    (active : row.status = .intentRecorded) :
    ∃ next, Consistent runId ((v.append runId (.stepRetryScheduled ⟨error, nextAttemptAt⟩) now
      (some row.id) (some row.attempts) eventSchemaVersion).setStep row.id
        (setRetry error nextAttemptAt now)) next := by
  refine ⟨_, step_event_consistent h running member (supported_version (.inl rfl)) (fun _ => rfl) ?_
    (by simp [setRetry]) ⟨_, set_row_mem member, by simp [setRetry]⟩⟩
  simp only [advanceStep, active_read active]
  rfl

theorem completion_read (h : Consistent runId v run) (running : run.status = .running)
    (member : row ∈ v.steps) {output : Json} (active : row.status = .intentRecorded) :
    foldHistory runId (v.events ++ [eventOf runId v.events (.stepCompleted ⟨output⟩) now
        (some row.id) (some row.attempts) eventSchemaVersion]) =
      .ok (some { run with steps := readSteps (v.setStep row.id (setCompleted output now)) },
        v.events.length + 1 + 1) := by
  refine fold_step_event h running member (supported_version (.inl rfl)) (fun _ => rfl) ?_
  simp only [advanceStep, active_read active]
  rfl

theorem completed_consistent (h : Consistent runId v run) (running : run.status = .running)
    (member : row ∈ v.steps) {output : Json} (active : row.status = .intentRecorded)
    (more : ∃ other ∈ (v.setStep row.id (setCompleted output now)).steps,
      other.status ≠ .completed) :
    ∃ next, Consistent runId ((v.append runId (.stepCompleted ⟨output⟩) now (some row.id)
      (some row.attempts) eventSchemaVersion).setStep row.id (setCompleted output now)) next := by
  refine ⟨_, step_event_consistent h running member (supported_version (.inl rfl)) (fun _ => rfl) ?_
    (by simp [setCompleted]) more⟩
  simp only [advanceStep, active_read active]
  rfl

/-- The second event of a transition that ends the run. -/
theorem fold_terminal_event {events : List WorkflowRunEvent} {first : WorkflowRunEvent}
    {middle last : WorkflowRun} {payload : EventPayload} {stepId : Option String}
    (sequences : (events ++ [first]).map (·.sequence) = numbering (events ++ [first]).length)
    (folded : foldHistory runId (events ++ [first]) = .ok (some middle, events.length + 1 + 1))
    (running : middle.status = .running) (notCreation : payload.eventType ≠ .workflowRunCreated)
    (advanced : advanceRun middle
      (eventOf runId (events ++ [first]) payload now stepId none eventSchemaVersion) payload =
        .ok last) :
    foldHistory runId (events ++ [first] ++
        [eventOf runId (events ++ [first]) payload now stepId none eventSchemaVersion]) =
      .ok (some last, (events ++ [first] ++
        [eventOf runId (events ++ [first]) payload now stepId none eventSchemaVersion]).length + 1) := by
  refine replay_snoc_ok.mpr ⟨_, folded, ?_⟩
  have count : ((events ++ [first]).length : Int) = events.length + 1 := by simp
  have taken := reduce_appended sequences running notCreation (supported_version (.inl rfl)) advanced
  rw [count] at taken
  rw [taken]
  push_cast [List.length_append]
  rfl

theorem finished_consistent (h : Consistent runId v run) (running : run.status = .running)
    (member : row ∈ v.steps) {output : Json} (active : row.status = .intentRecorded)
    (all : ∀ other ∈ (v.setStep row.id (setCompleted output now)).steps,
      other.status = .completed) :
    ∃ next, Consistent runId ((((v.append runId (.stepCompleted ⟨output⟩) now (some row.id)
      (some row.attempts) eventSchemaVersion).setStep row.id (setCompleted output now)).append runId
        .workflowRunCompleted now none none eventSchemaVersion).setRun (setRunCompleted now)) next := by
  obtain ⟨_, sequences, _⟩ := consistent_sound h
  obtain ⟨runRow, rows, same⟩ := h.row
  have folded : foldHistory runId (v.events ++ [eventOf runId v.events (.stepCompleted ⟨output⟩) now
      (some row.id) (some row.attempts) eventSchemaVersion]) = _ :=
    completion_read h running member active
  refine ⟨{ run with
      steps := readSteps (v.setStep row.id (setCompleted output now))
      status := .completed
      updatedAt := now
      completedAt := some now }, ⟨setRunCompleted now runRow, ?_, ?_⟩, ?_, settle_terminal (by simp)⟩
  · simp [RunView.setRun, RunView.append, RunView.setStep, rows]
  · rw [same]
    rfl
  · refine fold_terminal_event (sequences_snoc sequences runId _ now _ _ _) folded running
      (by simp [EventPayload.eventType]) ?_
    refine complete_run_accepts ⟨rfl, rfl⟩ fun step inside => ?_
    obtain ⟨other, present, rfl⟩ := List.mem_map.mp inside
    exact all other (mem_orderBy.mp present)

theorem failed_consistent (h : Consistent runId v run) (running : run.status = .running)
    (member : row ∈ v.steps) {error : String} (active : row.status = .intentRecorded) :
    ∃ next, Consistent runId ((((v.append runId (.stepFailed ⟨error⟩) now (some row.id)
      (some row.attempts) eventSchemaVersion).append runId (.workflowRunFailed ⟨row.id, error⟩) now
        (some row.id) none eventSchemaVersion).setStep row.id (setFailed error now)).setRun
          (setRunFailed now)) next := by
  obtain ⟨_, sequences, _, sound⟩ := consistent_sound h
  obtain ⟨runRow, rows, same⟩ := h.row
  -- `fail_step` leaves next_attempt_at alone; an active attempt has none.
  have noDeadline : row.nextAttemptAt = none := by
    have fields := (sound.fields _ (row_read h member)).nextAttemptAt
    simpa [stepFromRow, active] using fields
  have advanced : advanceStep run (eventOf runId v.events (.stepFailed ⟨error⟩) now (some row.id)
      (some row.attempts) eventSchemaVersion) row.attempts
      (stepFromRow (dependencies v.dependencies) row) (.stepFailed ⟨error⟩) =
        .ok (stepFromRow (dependencies v.dependencies) (setFailed error now row)) := by
    simp only [advanceStep, active_read active]
    simp [stepFromRow, setFailed, noDeadline, eventOf]
  have keeps : ∀ r, immutable (setFailed error now r) = immutable r := fun _ => rfl
  have folded := fold_step_event h running member (supported_version (.inl rfl)) keeps advanced
  refine ⟨{ run with
      steps := readSteps (v.setStep row.id (setFailed error now))
      status := .failed
      updatedAt := now }, ⟨setRunFailed now runRow, ?_, ?_⟩, ?_, settle_terminal (by simp)⟩
  · simp [RunView.setRun, RunView.append, RunView.setStep, rows]
  · rw [same]
    rfl
  · refine fold_terminal_event (sequences_snoc sequences runId _ now _ _ _) folded running
      (by simp [EventPayload.eventType]) ?_
    obtain ⟨_, _, _, _, middleSound⟩ := fold_state_sound folded
    have present : stepFromRow (dependencies v.dependencies) (setFailed error now row) ∈
        readSteps (v.setStep row.id (setFailed error now)) :=
      List.mem_map_of_mem (mem_orderBy.mpr (set_row_mem member))
    obtain ⟨_, found, _⟩ := find_step_unique middleSound.distinct present
    have named : (stepFromRow (dependencies v.dependencies) (setFailed error now row)).id = row.id := rfl
    rw [named] at found
    have located : findStep { run with steps := readSteps (v.setStep row.id (setFailed error now)) }
        row.id = .ok (stepFromRow (dependencies v.dependencies) (setFailed error now row)) := by
      simp only [findStep, found, Except.map]
    exact fail_run_accepts ⟨rfl, rfl⟩ located ⟨rfl, rfl⟩

/-- Every committed transition on a running run keeps projection and history equal. -/
theorem move_consistent (h : Consistent runId v run) (running : run.status = .running)
    (member : row ∈ v.steps) (move : RunMove runId v row now write w) : ∃ next, Consistent runId w next := by
  cases move with
  | attempted ownerId fenceToken runnable ready paired =>
    exact attempt_consistent h running member runnable ready paired
  | retried error nextAttemptAt active => exact retry_consistent h running member active
  | failed error active => exact failed_consistent h running member active
  | completed output active w written more =>
    subst written
    exact completed_consistent h running member active more
  | finished output active w written all =>
    subst written
    exact finished_consistent h running member active all

end Transitions

end Crashsafe

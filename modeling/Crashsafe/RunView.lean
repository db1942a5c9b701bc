import Crashsafe.Storage
import Crashsafe.HistorySoundness

/- One run's rows. Every method writes the rows of a single run, so what it does is said once
   on the view of that run; the views of the other runs stay. -/
namespace Crashsafe
open Rows

structure RunView where
  runs : List WorkflowRunRow
  steps : List StepRow
  dependencies : List DependencyRow
  events : List WorkflowRunEvent
  leases : List WorkflowRunLease

def Database.view (db : Database) (runId : String) : RunView where
  runs := db.runsOf runId
  steps := db.stepsOf runId
  dependencies := db.dependenciesOf runId
  events := db.eventsOf runId
  leases := db.leasesOf runId

def RunView.empty : RunView := ⟨[], [], [], [], []⟩

/-- What a step row is created with and no update changes. -/
def immutable (row : StepRow) : String × StepDefinition :=
  (row.runId, snapshot (stepFromRow (fun _ => []) row))

section Updates

def nextOf (events : List WorkflowRunEvent) : Int := (events.map (·.sequence)).max?.getD 0 + 1

def eventOf (runId : String) (events : List WorkflowRunEvent) (payload : EventPayload)
    (occurredAt : Datetime) (stepId : Option String) (attempt : Option Int) (schemaVersion : Int) :
    WorkflowRunEvent where
  runId := runId
  sequence := nextOf events
  eventType := payload.eventType
  schemaVersion := schemaVersion
  stepId := stepId
  attempt := attempt
  payload := some payload
  occurredAt := occurredAt

def RunView.append (v : RunView) (runId : String) (payload : EventPayload) (occurredAt : Datetime)
    (stepId : Option String) (attempt : Option Int) (schemaVersion : Int) : RunView :=
  { v with
    events := v.events ++ [eventOf runId v.events payload occurredAt stepId attempt schemaVersion] }

def RunView.setStep (v : RunView) (stepId : String) (set : StepRow → StepRow) : RunView :=
  { v with steps := updateWhere (fun row => row.id = stepId) set v.steps }

def RunView.setRun (v : RunView) (set : WorkflowRunRow → WorkflowRunRow) : RunView :=
  { v with runs := v.runs.map set }

def RunView.Blocked (v : RunView) (stepId : String) : Prop :=
  ∃ d ∈ v.dependencies, d.stepId = stepId ∧
    ∃ dep ∈ v.steps, dep.id = d.dependencyStepId ∧ dep.status ≠ .completed

end Updates

/-- What a transition asks to be written about its step. -/
inductive Write where
  | attempt (ownerId : Option String) (fenceToken : Option Int)
  | retry (error : String) (nextAttemptAt : Datetime)
  | fail (error : String)
  | complete (output : Json)

def Write.set (row : StepRow) (now : Datetime) : Write → StepRow → StepRow
  | .attempt _ _ => setAttempt (row.attempts + 1) now
  | .retry error nextAttemptAt => setRetry error nextAttemptAt now
  | .fail error => setFailed error now
  | .complete output => setCompleted output now

@[simp] theorem write_keeps_immutable (row : StepRow) (now : Datetime) (write : Write)
    (other : StepRow) : immutable (write.set row now other) = immutable other := by
  cases write <;> rfl

/-- What the step's status must be for the write. -/
def Write.Permits (row : StepRow) : Write → Prop
  | .attempt _ _ => row.status ∈ runnableStatuses
  | _ => row.status = .intentRecorded

/-- The view a committed transition on the step of `row` leaves. -/
inductive RunMove (runId : String) (v : RunView) (row : StepRow) (now : Datetime) :
    Write → RunView → Prop where
  | attempted (ownerId : Option String) (fenceToken : Option Int)
      (runnable : row.status ∈ runnableStatuses) (ready : ¬ v.Blocked row.id)
      (paired : ownerId.isSome = fenceToken.isSome) :
      RunMove runId v row now (.attempt ownerId fenceToken)
        ((v.append runId (attemptPayload row ownerId fenceToken) now (some row.id)
          (some (row.attempts + 1))
          (if ownerId.isSome then attemptEventSchemaVersion else eventSchemaVersion)).setStep
            row.id (setAttempt (row.attempts + 1) now))
  | retried (error : String) (nextAttemptAt : Datetime) (active : row.status = .intentRecorded) :
      RunMove runId v row now (.retry error nextAttemptAt)
        ((v.append runId (.stepRetryScheduled ⟨error, nextAttemptAt⟩) now (some row.id)
          (some row.attempts) eventSchemaVersion).setStep row.id (setRetry error nextAttemptAt now))
  | failed (error : String) (active : row.status = .intentRecorded) :
      RunMove runId v row now (.fail error)
        ((((v.append runId (.stepFailed ⟨error⟩) now (some row.id) (some row.attempts)
          eventSchemaVersion).append runId (.workflowRunFailed ⟨row.id, error⟩) now (some row.id) none
          eventSchemaVersion).setStep row.id (setFailed error now)).setRun (setRunFailed now))
  | completed (output : Json) (active : row.status = .intentRecorded) (w : RunView)
      (written : w = (v.append runId (.stepCompleted ⟨output⟩) now (some row.id) (some row.attempts)
        eventSchemaVersion).setStep row.id (setCompleted output now))
      (more : ∃ other ∈ w.steps, other.status ≠ .completed) :
      RunMove runId v row now (.complete output) w
  | finished (output : Json) (active : row.status = .intentRecorded) (w : RunView)
      (written : w = (v.append runId (.stepCompleted ⟨output⟩) now (some row.id) (some row.attempts)
        eventSchemaVersion).setStep row.id (setCompleted output now))
      (all : ∀ other ∈ w.steps, other.status = .completed) :
      RunMove runId v row now (.complete output)
        ((w.append runId .workflowRunCompleted now none none eventSchemaVersion).setRun
          (setRunCompleted now))

section Moves
variable {runId : String} {v w : RunView} {row : StepRow} {now : Datetime} {write : Write}

theorem move_permitted (move : RunMove runId v row now write w) : write.Permits row := by
  cases move <;> assumption

theorem move_steps (move : RunMove runId v row now write w) :
    w.steps = updateWhere (fun other => other.id = row.id) (write.set row now) v.steps := by
  cases move with
  | completed output active w written more =>
    rw [written]
    rfl
  | finished output active w written all =>
    rw [written]
    rfl
  | _ => rfl

theorem move_dependencies (move : RunMove runId v row now write w) :
    w.dependencies = v.dependencies := by
  cases move with
  | completed output active w written more => rw [written]; rfl
  | finished output active w written all => rw [written]; rfl
  | _ => rfl

theorem move_leases (move : RunMove runId v row now write w) : w.leases = v.leases := by
  cases move with
  | completed output active w written more => rw [written]; rfl
  | finished output active w written all => rw [written]; rfl
  | _ => rfl

theorem move_extends_events (move : RunMove runId v row now write w) :
    ∃ first rest, w.events = v.events ++ first :: rest := by
  cases move with
  | completed output active w written more => rw [written]; exact ⟨_, [], rfl⟩
  | finished output active w written all =>
    rw [written]
    exact ⟨_, [_], List.append_assoc _ _ _⟩
  | failed error active =>
    exact ⟨_, [_], List.append_assoc _ _ _⟩
  | _ => exact ⟨_, [], rfl⟩

/-- A move ends the run or leaves its row as it is. -/
theorem move_runs (move : RunMove runId v row now write w) :
    w.runs = v.runs ∨ w.runs = v.runs.map (setRunFailed now) ∨
      w.runs = v.runs.map (setRunCompleted now) := by
  cases move with
  | completed output active w written more => rw [written]; exact .inl rfl
  | finished output active w written all => rw [written]; exact .inr (.inr rfl)
  | failed error active => exact .inr (.inl rfl)
  | _ => exact .inl rfl

end Moves

section Frames
variable (db : Database) (runId : String) {other : String}

theorem view_append (payload : EventPayload) (now : Datetime) (stepId : Option String)
    (attempt : Option Int) (version : Int) :
    (appendEvent db runId payload now stepId attempt version).view runId =
      (db.view runId).append runId payload now stepId attempt version := by
  simp only [Database.view, RunView.append, Database.runsOf, Database.stepsOf,
    Database.dependenciesOf, Database.eventsOf, Database.leasesOf, appendEvent, RunView.mk.injEq,
    true_and, and_true]
  exact ofKey_append_same (by simp)

theorem view_append_other (differs : other ≠ runId) (payload : EventPayload) (now : Datetime)
    (stepId : Option String) (attempt : Option Int) (version : Int) :
    (appendEvent db runId payload now stepId attempt version).view other = db.view other := by
  simp only [Database.view, Database.runsOf, Database.stepsOf, Database.dependenciesOf,
    Database.eventsOf, Database.leasesOf, appendEvent, RunView.mk.injEq, true_and, and_true]
  exact ofKey_append_other (by simpa using differs.symm)

variable {set : StepRow → StepRow} (keeps : ∀ row, immutable (set row) = immutable row)
include keeps

theorem view_update_step (stepId : String) :
    (updateStep db runId stepId set).view runId = (db.view runId).setStep stepId set := by
  have sameRun : ∀ row, (set row).runId = row.runId := fun row => congrArg Prod.fst (keeps row)
  simp only [Database.view, RunView.setStep, Database.runsOf, Database.stepsOf,
    Database.dependenciesOf, Database.eventsOf, Database.leasesOf, updateStep, RunView.mk.injEq,
    true_and, and_true]
  rw [ofKey_updateWhere fun row _ => sameRun row]
  refine updateWhere_congr (fun row member => ?_) fun _ _ _ => rfl
  simp [(mem_ofKey.mp member).2]

theorem view_update_step_other (differs : other ≠ runId) (stepId : String) :
    (updateStep db runId stepId set).view other = db.view other := by
  have sameRun : ∀ row, (set row).runId = row.runId := fun row => congrArg Prod.fst (keeps row)
  simp only [Database.view, Database.runsOf, Database.stepsOf, Database.dependenciesOf,
    Database.eventsOf, Database.leasesOf, updateStep, RunView.mk.injEq, true_and, and_true]
  refine ofKey_updateWhere_other (fun row _ => sameRun row) (l := runId) (fun row selected => ?_)
    differs _
  simp only [decide_eq_true_eq] at selected
  exact selected.1

end Frames

section RunFrames
variable (db : Database) (runId : String) {other : String} {set : WorkflowRunRow → WorkflowRunRow}
  (keeps : ∀ row, (set row).runId = row.runId)
include keeps

theorem view_update_run :
    (updateRun db runId set).view runId = (db.view runId).setRun set := by
  simp only [Database.view, RunView.setRun, Database.runsOf, Database.stepsOf,
    Database.dependenciesOf, Database.eventsOf, Database.leasesOf, updateRun, RunView.mk.injEq,
    and_true]
  rw [ofKey_updateWhere fun row _ => keeps row]
  apply List.map_congr_left
  intro row member
  simp [(mem_ofKey.mp member).2]

theorem view_update_run_other (differs : other ≠ runId) :
    (updateRun db runId set).view other = db.view other := by
  simp only [Database.view, Database.runsOf, Database.stepsOf, Database.dependenciesOf,
    Database.eventsOf, Database.leasesOf, updateRun, RunView.mk.injEq, and_true]
  exact ofKey_updateWhere_other (fun row _ => keeps row) (l := runId) (fun row => by simp) differs _

end RunFrames

theorem blocked_view {db : Database} {runId stepId : String} :
    Blocked db runId stepId ↔ (db.view runId).Blocked stepId := by
  simp only [Blocked, RunView.Blocked, Database.view, Database.dependenciesOf, Database.stepsOf,
    mem_ofKey]
  constructor
  · rintro ⟨d, hd, ⟨run, step⟩, dep, hdep, ⟨sameRun, named⟩, incomplete⟩
    exact ⟨d, ⟨hd, run⟩, step, dep, ⟨hdep, sameRun.trans run⟩, named, incomplete⟩
  · rintro ⟨d, ⟨hd, run⟩, step, dep, ⟨hdep, sameRun⟩, named, incomplete⟩
    exact ⟨d, hd, ⟨run, step⟩, dep, hdep, ⟨sameRun.trans run.symm, named⟩, incomplete⟩

theorem get_step_row_ok {db : Database} {runId stepId : String} {row : StepRow}
    (h : getStepRow db runId stepId = .ok row) : row ∈ (db.view runId).steps ∧ row.id = stepId := by
  unfold getStepRow at h
  split at h
  · cases h
  · rename_i found present
    cases h
    have named := List.find?_some present
    simp only [decide_eq_true_eq] at named
    exact ⟨mem_ofKey.mpr ⟨List.mem_of_find?_eq_some present, named.1⟩, named.2⟩

theorem get_step_row_updated (db : Database) {runId stepId : String} {set : StepRow → StepRow}
    (keeps : ∀ row, immutable (set row) = immutable row) {row : StepRow}
    (found : getStepRow db runId stepId = .ok row) :
    getStepRow (updateStep db runId stepId set) runId stepId = .ok (set row) := by
  have sameRun : ∀ r, (set r).runId = r.runId := fun r => congrArg Prod.fst (keeps r)
  have sameId : ∀ r, (set r).id = r.id := fun r => congrArg (·.2.id) (keeps r)
  unfold getStepRow at found ⊢
  split at found
  · cases found
  rename_i first present
  cases found
  have updated := find_updateWhere (p := fun r : StepRow => decide (r.runId = runId ∧ r.id = stepId))
    (f := set) (fun r selected => by simpa [sameRun r, sameId r] using selected) db.steps
  rw [present] at updated
  simp only [updateStep]
  rw [updated]
  rfl

/-- What a transition that commits on a step of a run has met and done. -/
structure Committed (db : Database) (runId stepId : String) (ownerId : Option String)
    (fenceToken : Option Int) (now leaseNow : Datetime) (write : Write) (db' : Database)
    (row : StepRow) : Prop where
  member : row ∈ (db.view runId).steps
  named : row.id = stepId
  lease : requireLease db row ownerId fenceToken leaseNow = .ok ()
  move : RunMove runId (db.view runId) row now write (db'.view runId)
  others : ∀ other, other ≠ runId → db'.view other = db.view other

theorem require_lease_paired {db : Database} {row : StepRow} {ownerId : Option String}
    {fenceToken : Option Int} {leaseNow : Datetime}
    (h : requireLease db row ownerId fenceToken leaseNow = .ok ()) :
    ownerId.isSome = fenceToken.isSome := by
  cases ownerId <;> cases fenceToken <;> simp_all [requireLease]

theorem require_active_attempt_ok {db : Database} {row : StepRow} {ownerId : Option String}
    {fenceToken : Option Int} {leaseNow : Datetime}
    (h : requireActiveAttempt db row ownerId fenceToken leaseNow = .ok ()) :
    requireLease db row ownerId fenceToken leaseNow = .ok () ∧ row.status = .intentRecorded := by
  unfold requireActiveAttempt at h
  split at h
  · cases h
  · rename_i lease
    split at h
    · cases h
    · rename_i active
      exact ⟨lease, by simpa using active⟩

section Methods
variable {db db' : Database} {runId stepId : String} {ownerId : Option String}
  {fenceToken : Option Int} {now leaseNow : Datetime}

theorem record_attempt_ok {step : StepRecord}
    (h : recordAttempt db runId stepId ownerId fenceToken now leaseNow = .ok (db', step)) :
    ∃ row, Committed db runId stepId ownerId fenceToken now leaseNow (.attempt ownerId fenceToken)
        db' row ∧
      step = stepFromRow (dependencies (db.view runId).dependencies)
        (setAttempt (row.attempts + 1) now row) := by
  unfold recordAttempt at h
  split at h
  · cases h
  rename_i row found
  split at h
  · cases h
  rename_i lease
  split at h
  · cases h
  rename_i runnable
  split at h
  · cases h
  rename_i ready
  obtain ⟨member, named⟩ := get_step_row_ok found
  subst named
  have keeps : ∀ r, immutable (setAttempt (row.attempts + 1) now r) = immutable r := fun _ => rfl
  have written := view_update_step (appendEvent db runId
    (attemptPayload row ownerId fenceToken) now (some row.id) (some (row.attempts + 1))
    (if ownerId.isSome then attemptEventSchemaVersion else eventSchemaVersion)) runId keeps row.id
  rw [view_append] at written
  have reread := get_step_row_updated (appendEvent db runId
    (attemptPayload row ownerId fenceToken) now (some row.id) (some (row.attempts + 1))
    (if ownerId.isSome then attemptEventSchemaVersion else eventSchemaVersion)) keeps
    (by exact found : getStepRow _ runId row.id = .ok row)
  dsimp only at h
  rw [reread] at h
  cases h
  refine ⟨row, ⟨member, rfl, lease, ?_, ?_⟩, rfl⟩
  · rw [written]
    exact .attempted ownerId fenceToken (by simpa using runnable)
      (fun blocked => ready (blocked_view.mpr blocked)) (require_lease_paired lease)
  · intro other differs
    rw [view_update_step_other _ _ keeps differs, view_append_other _ _ differs]

theorem schedule_retry_ok {error : String} {nextAttemptAt : Datetime} {throttleTool : Bool}
    (h : scheduleRetry db runId stepId error nextAttemptAt ownerId fenceToken throttleTool now
      leaseNow = .ok db') :
    ∃ row, Committed db runId stepId ownerId fenceToken now leaseNow (.retry error nextAttemptAt)
      db' row := by
  unfold scheduleRetry at h
  split at h
  · cases h
  rename_i row found
  split at h
  · cases h
  rename_i checked
  obtain ⟨lease, active⟩ := require_active_attempt_ok checked
  obtain ⟨member, named⟩ := get_step_row_ok found
  subst named
  have keeps : ∀ r, immutable (setRetry error nextAttemptAt now r) = immutable r := fun _ => rfl
  -- The throttle table belongs to no run.
  have same : ∀ runId', db'.view runId' = (updateStep (appendEvent db runId
      (.stepRetryScheduled ⟨error, nextAttemptAt⟩) now (some row.id) (some row.attempts)
      eventSchemaVersion) runId row.id (setRetry error nextAttemptAt now)).view runId' := by
    intro runId'
    split at h <;> cases h <;> rfl
  refine ⟨row, member, rfl, lease, ?_, ?_⟩
  · rw [same, view_update_step _ _ keeps, view_append]
    exact .retried error nextAttemptAt active
  · intro other differs
    rw [same, view_update_step_other _ _ keeps differs, view_append_other _ _ differs]

theorem fail_step_ok {error : String}
    (h : failStep db runId stepId error ownerId fenceToken now leaseNow = .ok db') :
    ∃ row, Committed db runId stepId ownerId fenceToken now leaseNow (.fail error) db' row := by
  unfold failStep at h
  split at h
  · cases h
  rename_i row found
  split at h
  · cases h
  rename_i checked
  cases h
  obtain ⟨lease, active⟩ := require_active_attempt_ok checked
  obtain ⟨member, named⟩ := get_step_row_ok found
  subst named
  have keeps : ∀ r, immutable (setFailed error now r) = immutable r := fun _ => rfl
  have keepsRun : ∀ r, (setRunFailed now r).runId = r.runId := fun _ => rfl
  refine ⟨row, member, rfl, lease, ?_, ?_⟩
  · rw [view_update_run _ _ keepsRun, view_update_step _ _ keeps, view_append, view_append]
    exact .failed error active
  · intro other differs
    rw [view_update_run_other _ _ keepsRun differs, view_update_step_other _ _ keeps differs,
      view_append_other _ _ differs, view_append_other _ _ differs]

/-- Completing a step commits, or finds the attempt already decided and changes nothing. -/
theorem complete_step_ok {output : Json}
    (h : completeStep db runId stepId output ownerId fenceToken now leaseNow = .ok db') :
    (db' = db ∧ ∀ row, getStepRow db runId stepId = .ok row → row.status ≠ .intentRecorded) ∨
      ∃ row, Committed db runId stepId ownerId fenceToken now leaseNow (.complete output) db' row := by
  unfold completeStep at h
  split at h
  · cases h
  rename_i row found
  split at h
  · cases h
  rename_i lease
  obtain ⟨member, named⟩ := get_step_row_ok found
  subst named
  split at h
  · rename_i decided
    cases h
    refine .inl ⟨rfl, fun other same => ?_⟩
    obtain rfl := Except.ok.inj (found.symm.trans same)
    exact decided
  rename_i active
  rw [not_not] at active
  refine .inr ⟨row, member, rfl, lease, ?_, ?_⟩
  all_goals
    have keeps : ∀ r, immutable (setCompleted output now r) = immutable r := fun _ => rfl
    have keepsRun : ∀ r, (setRunCompleted now r).runId = r.runId := fun _ => rfl
    have written := view_update_step (appendEvent db runId
      (.stepCompleted ⟨output⟩) now (some row.id) (some row.attempts) eventSchemaVersion) runId keeps row.id
    rw [view_append] at written
    dsimp only at h
  · split at h
    · rename_i none
      cases h
      rw [view_update_run _ _ keepsRun, view_append, written]
      refine .finished output active _ rfl fun other inside => ?_
      rw [← written] at inside
      simpa using List.countP_eq_zero.mp none other inside
    · rename_i some
      cases h
      rw [written]
      refine .completed output active _ rfl ?_
      obtain ⟨other, inside, unfinished⟩ := List.countP_pos_iff.mp (Nat.pos_of_ne_zero some)
      rw [← written]
      exact ⟨other, inside, by simpa using unfinished⟩
  · intro other differs
    have base := (view_update_step_other (appendEvent db runId (.stepCompleted ⟨output⟩) now
      (some row.id) (some row.attempts) eventSchemaVersion) runId keeps differs row.id).trans
        (view_append_other db runId differs _ _ _ _ _)
    split at h
    · cases h
      rw [view_update_run_other _ _ keepsRun differs, view_append_other _ _ differs, base]
    · cases h
      exact base

end Methods

end Crashsafe

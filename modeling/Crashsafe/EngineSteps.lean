import Crashsafe.Engine
import Crashsafe.Bookkeeping

/- What one step of the system can do, said once. -/
namespace Crashsafe
open Execution

/-- The claim of a process that has not recorded its attempt yet. -/
def Pc.unrecorded? : Pc → Option ClaimedStep
  | .claimed claim | .recording claim _ => some claim
  | _ => none

/-- The claim and the step of a process with an attempt on record and no outcome stored. -/
def Pc.attempt? : Pc → Option (ClaimedStep × StepRecord)
  | .attempted claim step | .waiting claim step _ | .decided claim step _
  | .committing claim step _ _ => some (claim, step)
  | _ => none

def Pc.unsent? : Pc → Option StepRecord
  | .attempted _ step => some step
  | _ => none

def Pc.waiting? : Pc → Option (StepRecord × Nat)
  | .waiting _ step request => some (step, request)
  | _ => none

def Pc.decision? : Pc → Option (StepRecord × Decision)
  | .decided _ step decision | .committing _ step decision _ => some (step, decision)
  | _ => none

def Pc.reads? : Pc → Option (String × List WorkflowRunEvent × WorkflowRun)
  | .rebuilding runId history rebuilt | .rewriting runId history rebuilt _ =>
    some (runId, history, rebuilt)
  | _ => none

def Pc.creating? : Pc → Option String
  | .creating runId _ _ _ => some runId
  | _ => none

/-- The new position remembers nothing the old one did not, a fresh run id apart. -/
structure Forgets (old new : Pc) : Prop where
  claim : ∀ c, new.claim? = some c → old.claim? = some c
  unrecorded : ∀ c, new.unrecorded? = some c → old.unrecorded? = some c
  attempt : ∀ x, new.attempt? = some x → old.attempt? = some x
  unsent : ∀ x, new.unsent? = some x → old.unsent? = some x
  waiting : ∀ x, new.waiting? = some x → old.waiting? = some x
  decision : ∀ x, new.decision? = some x → old.decision? = some x
  reads : ∀ x, new.reads? = some x → old.reads? = some x
  creating : ∀ runId, new.creating? = some runId → old.creating? = some runId ∨ uuidText runId = true

theorem forgets_all {old new : Pc} (claim : new.claim? = none) (reads : new.reads? = none)
    (fresh : ∀ runId, new.creating? = some runId → uuidText runId = true) : Forgets old new := by
  cases new <;> simp_all [Pc.claim?, Pc.reads?] <;> constructor <;>
    simp_all [Pc.claim?, Pc.unrecorded?, Pc.attempt?, Pc.unsent?, Pc.waiting?, Pc.decision?, Pc.reads?,
      Pc.creating?]

theorem forgets_idle {old : Pc} : Forgets old .idle := forgets_all rfl rfl fun _ h => by cases h

theorem forgets_refl (pc : Pc) : Forgets pc pc :=
  ⟨fun _ => id, fun _ => id, fun _ => id, fun _ => id, fun _ => id, fun _ => id, fun _ => id,
    fun _ => .inl⟩

theorem forgets_finishing {old : Pc} {claim : ClaimedStep} (h : old.claim? = some claim) :
    Forgets old (.finishing claim) := by
  constructor
  case claim =>
    intro c same
    rw [← same, h]
    rfl
  all_goals simp [Pc.unrecorded?, Pc.attempt?, Pc.unsent?, Pc.waiting?, Pc.decision?, Pc.reads?,
    Pc.creating?]

theorem forgets_recording {claim : ClaimedStep} {now : Datetime} :
    Forgets (.claimed claim) (.recording claim now) := by
  constructor <;> simp [Pc.claim?, Pc.unrecorded?, Pc.attempt?, Pc.unsent?, Pc.waiting?, Pc.decision?,
    Pc.reads?, Pc.creating?]

theorem forgets_committing {claim : ClaimedStep} {step : StepRecord} {decision : Decision}
    {now : Datetime} : Forgets (.decided claim step decision) (.committing claim step decision now) := by
  constructor <;> simp [Pc.claim?, Pc.unrecorded?, Pc.attempt?, Pc.unsent?, Pc.waiting?, Pc.decision?,
    Pc.reads?, Pc.creating?]

theorem forgets_releasing {claim : ClaimedStep} {now : Datetime} :
    Forgets (.finishing claim) (.releasing claim now) := by
  constructor <;> simp [Pc.claim?, Pc.unrecorded?, Pc.attempt?, Pc.unsent?, Pc.waiting?, Pc.decision?,
    Pc.reads?, Pc.creating?]

theorem forgets_rewriting {runId : String} {history : List WorkflowRunEvent} {rebuilt : WorkflowRun}
    {created : WorkflowRunCreatedPayload} :
    Forgets (.rebuilding runId history rebuilt) (.rewriting runId history rebuilt created) := by
  constructor <;> simp [Pc.claim?, Pc.unrecorded?, Pc.attempt?, Pc.unsent?, Pc.waiting?, Pc.decision?,
    Pc.reads?, Pc.creating?]

/-- The write a decision asks for. -/
def Decision.write : Decision → Write
  | .retry error nextAttemptAt _ => .retry error nextAttemptAt
  | .fail error => .fail error
  | .complete output => .complete output

/-- Heartbeats only ever belong to leases that had one already. -/
def SameBeats (before after : List Heartbeat) : Prop :=
  ∀ h ∈ after, ∃ h' ∈ before, h'.lease = h.lease

/-- Everything a step may have done to the system. -/
inductive Effect (d : Deployment) (s : State) : Action → State → Prop where
  | quiet {a : Action} {p : Nat} {pc : Pc} {beats : List Heartbeat} (forgets : Forgets (s.pc p) pc)
      (same : SameBeats s.heartbeats beats) :
      Effect d s a { s.goto p pc with heartbeats := beats }
  | created {p : Nat} {runId : String} {definition : WorkflowDefinition} {toolKey : Option String}
      {now : Datetime} {db : Database} (was : s.pc p = .creating runId definition toolKey now)
      (done : createWorkflowRun s.db definition toolKey (d.defaultToolKey p) runId now = .ok db) :
      Effect d s (.commitCreate p) { s.goto p .idle with db := db }
  | granted {p choice : Nat} {now : Datetime} {db : Database} {claim : ClaimedStep}
      (was : s.pc p = .claiming now) (granted : Granted s.db (d.workerId p) now db claim) :
      Effect d s (.commitClaim p choice)
        { s.goto p (.claimed claim) with db := db, issued := s.issued ++ [claim.lease] }
  | recorded {p : Nat} {claim : ClaimedStep} {now leaseNow : Datetime} {db : Database}
      {row : StepRow} (was : s.pc p = .recording claim now)
      (committed : Committed s.db claim.step.runId claim.step.id (some claim.lease.ownerId)
        (some claim.lease.fenceToken) now leaseNow
        (.attempt (some claim.lease.ownerId) (some claim.lease.fenceToken)) db row) :
      Effect d s (.commitRecord p leaseNow)
        { s.goto p (.attempted claim (stepFromRow
            (dependencies (s.db.view claim.step.runId).dependencies)
            (setAttempt (row.attempts + 1) now row))) with
          db := db
          heartbeats := s.heartbeats ++ [⟨p, claim.lease, none⟩] }
  | sent {p : Nat} {claim : ClaimedStep} {step : StepRecord} (was : s.pc p = .attempted claim step) :
      Effect d s (.send p)
        { s.goto p (.waiting claim step s.sent.length) with sent := s.sent ++ [requestOf step] }
  | resolved {p request : Nat} {claim : ClaimedStep} {step : StepRecord} {outcome : Outcome}
      {now : Datetime} {decision : Decision} (was : s.pc p = .waiting claim step request)
      (chosen : decideOutcome (d.settings p) step now outcome = some decision) :
      Effect d s (.resolve p outcome now) (s.goto p (.decided claim step decision))
  | decided {p : Nat} {claim : ClaimedStep} {step : StepRecord} {decision : Decision}
      {now leaseNow : Datetime} {db : Database} {row : StepRow}
      (was : s.pc p = .committing claim step decision now)
      (committed : Committed s.db step.runId step.id (some claim.lease.ownerId)
        (some claim.lease.fenceToken) now leaseNow decision.write db row) :
      Effect d s (.commitDecision p leaseNow) { s.goto p (.finishing claim) with db := db }
  | released {p : Nat} {claim : ClaimedStep} {now : Datetime} {db : Database}
      (was : s.pc p = .releasing claim now)
      (touched : Touched s.db claim.step.runId claim.lease.ownerId claim.lease.fenceToken db) :
      Effect d s (.commitRelease p) { s.goto p .idle with db := db }
  | renewed {i : Nat} {h : Heartbeat} {beats : List Heartbeat} {db : Database}
      (held : s.heartbeats[i]? = some h) (same : SameBeats s.heartbeats beats)
      (touched : Touched s.db h.lease.runId h.lease.ownerId h.lease.fenceToken db) :
      Effect d s (.renewHeartbeat i) { s with db := db, heartbeats := beats }
  | read {p : Nat} {runId : String} {history : List WorkflowRunEvent} {rebuilt : WorkflowRun}
      (listed : listEvents s.db runId = .ok history)
      (reduced : reduceWorkflowRunHistory history = .ok rebuilt) :
      Effect d s (.readHistory p runId) (s.goto p (.rebuilding runId history rebuilt))
  | rebuilt {p : Nat} {runId : String} {history : List WorkflowRunEvent} {rebuilt : WorkflowRun}
      {created : WorkflowRunCreatedPayload} {db : Database}
      (was : s.pc p = .rewriting runId history rebuilt created)
      (done : rebuildProjection s.db runId rebuilt created = .ok db) :
      Effect d s (.commitRebuild p) { s.goto p .idle with db := db }

theorem same_beats_refl (beats : List Heartbeat) : SameBeats beats beats := fun h member => ⟨h, member, rfl⟩

theorem same_beats_set {beats : List Heartbeat} {i : Nat} {h h' : Heartbeat}
    (held : beats[i]? = some h) (same : h'.lease = h.lease) : SameBeats beats (beats.set i h') := by
  intro x member
  rcases List.mem_or_eq_of_mem_set member with old | new
  · exact ⟨x, old, rfl⟩
  · exact ⟨h, List.mem_of_getElem? held, by rw [new, same]⟩

theorem quiet_step {d : Deployment} {s : State} {a : Action} {p : Nat} {pc : Pc}
    (forgets : Forgets (s.pc p) pc) : Effect d s a (s.goto p pc) :=
  .quiet forgets (same_beats_refl _)

theorem quiet_beats {d : Deployment} {s : State} {a : Action} {beats : List Heartbeat}
    (same : SameBeats s.heartbeats beats) : Effect d s a { s with heartbeats := beats } := by
  have stay : { s.goto 0 (s.pc 0) with heartbeats := beats } = { s with heartbeats := beats } := by
    simp [State.goto]
  rw [← stay]
  exact .quiet (forgets_refl _) same

section Transactions
variable {d : Deployment} {s t : State} {p : Nat}

theorem commit_claim_effect {choice : Nat} (h : step d s (.commitClaim p choice) = some t) :
    Effect d s (.commitClaim p choice) t := by
  simp only [step] at h
  split at h
  · rename_i now was
    split at h
    · cases h
      exact quiet_step forgets_idle
    · cases h
      exact quiet_step forgets_idle
    · rename_i outcomes _ claims
      obtain ⟨⟨db, claim⟩, chosen, same⟩ := Option.map_eq_some_iff.mp h
      cases same
      exact .granted was (claim_ok claims (List.mem_of_getElem? chosen))
  · cases h

/-- A decision that is refused, or a completion that finds nothing to complete, leaves the
    database alone. -/
theorem commit_decision_effect {leaseNow : Datetime}
    (h : step d s (.commitDecision p leaseNow) = some t) : Effect d s (.commitDecision p leaseNow) t := by
  simp only [step] at h
  split at h
  · rename_i claim step decision now was
    have quiet : Effect d s (.commitDecision p leaseNow) (s.goto p (.finishing claim)) :=
      quiet_step (forgets_finishing (by rw [was]; rfl))
    split at h
    · rename_i db stored
      cases h
      cases decision with
      | retry error nextAttemptAt throttleTool =>
        obtain ⟨row, committed⟩ := schedule_retry_ok stored
        exact .decided was committed
      | fail error =>
        obtain ⟨row, committed⟩ := fail_step_ok stored
        exact .decided was committed
      | complete output =>
        rcases complete_step_ok stored with ⟨same, _⟩ | ⟨row, committed⟩
        · subst same
          exact quiet
        · exact .decided was committed
    · cases h
      exact quiet
  · cases h

theorem read_history_effect {runId : String} (h : step d s (.readHistory p runId) = some t) :
    Effect d s (.readHistory p runId) t := by
  simp only [step] at h
  split at h
  · split at h
    · cases h
      exact quiet_beats (same_beats_refl _)
    · rename_i listed
      split at h
      · cases h
        exact quiet_beats (same_beats_refl _)
      · rename_i reduced
        cases h
        exact .read listed reduced
  · cases h

theorem read_creation_effect (h : step d s (.readCreation p) = some t) :
    Effect d s (.readCreation p) t := by
  simp only [step] at h
  split at h
  · rename_i runId history rebuilt was
    split at h
    · cases h
      exact quiet_step forgets_idle
    · split at h
      · cases h
        exact quiet_step forgets_idle
      · cases h
        exact quiet_step (by rw [was]; exact forgets_rewriting)
  · cases h

theorem renew_heartbeat_effect {i : Nat} (h : step d s (.renewHeartbeat i) = some t) :
    Effect d s (.renewHeartbeat i) t := by
  simp only [step] at h
  split at h
  · rename_i q lease now held
    split at h
    · rename_i renewed
      cases h
      exact .renewed held (same_beats_set held rfl) (renew_ok renewed)
    · cases h
      exact quiet_beats (same_beats_set held rfl)
  · cases h

end Transactions

theorem step_effect {d : Deployment} {s t : State} {a : Action} (h : step d s a = some t) :
    Effect d s a t := by
  cases a with
  | beginCreate p runId definition toolKey now =>
    simp only [step] at h
    split at h
    · split at h
      · rename_i fresh
        cases h
        exact quiet_step (forgets_all rfl rfl fun _ named => Option.some.inj named ▸ fresh)
      · cases h
    · cases h
  | commitCreate p =>
    simp only [step] at h
    split at h
    · rename_i was
      split at h
      · rename_i done
        cases h
        exact .created was done
      · cases h
        exact quiet_step forgets_idle
    · cases h
  | beginClaim p now =>
    simp only [step] at h
    split at h
    · cases h
      exact quiet_step (forgets_all rfl rfl fun _ h => by cases h)
    · cases h
  | commitClaim p choice => exact commit_claim_effect h
  | beginRecord p now =>
    simp only [step] at h
    split at h
    · rename_i claim was
      cases h
      exact quiet_step (by rw [was]; exact forgets_recording)
    · cases h
  | commitRecord p leaseNow =>
    simp only [step] at h
    split at h
    · rename_i claim now was
      split at h
      · rename_i db step recorded
        cases h
        obtain ⟨row, committed, rfl⟩ := record_attempt_ok recorded
        exact .recorded was committed
      · cases h
        exact quiet_step (forgets_finishing (by rw [was]; rfl))
    · cases h
  | send p =>
    simp only [step] at h
    split at h
    · rename_i was
      cases h
      exact .sent was
    · cases h
  | resolve p outcome now =>
    simp only [step] at h
    split at h
    · rename_i claim step request was
      split at h
      · rename_i chosen
        cases h
        exact .resolved was chosen
      · cases h
        exact quiet_step (forgets_finishing (by rw [was]; rfl))
    · cases h
  | beginDecision p now =>
    simp only [step] at h
    split at h
    · rename_i claim step decision was
      cases h
      exact quiet_step (by rw [was]; exact forgets_committing)
    · cases h
  | commitDecision p leaseNow => exact commit_decision_effect h
  | abandon p =>
    simp only [step] at h
    split at h
    all_goals
      cases h
      rename_i was
      first
        | exact quiet_step (forgets_finishing (by rw [was]; rfl))
        | exact quiet_step forgets_idle
  | beginRelease p now =>
    simp only [step] at h
    split at h
    · rename_i claim was
      cases h
      exact quiet_step (by rw [was]; exact forgets_releasing)
    · cases h
  | commitRelease p =>
    simp only [step] at h
    split at h
    · rename_i was
      cases h
      exact .released was release_touches
    · cases h
  | readHeartbeat i now =>
    obtain ⟨h', held, same⟩ := Option.map_eq_some_iff.mp h
    cases same
    exact quiet_beats (same_beats_set held rfl)
  | renewHeartbeat i => exact renew_heartbeat_effect h
  | crash p =>
    cases h
    refine .quiet forgets_idle fun h member => ⟨h, List.mem_of_mem_filter member, rfl⟩
  | readHistory p runId => exact read_history_effect h
  | readCreation p => exact read_creation_effect h
  | commitRebuild p =>
    simp only [step] at h
    split at h
    · rename_i was
      split at h
      · rename_i done
        cases h
        exact .rebuilt was done
      · cases h
        exact quiet_step forgets_idle
    · cases h

end Crashsafe

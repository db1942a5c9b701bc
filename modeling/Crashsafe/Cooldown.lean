import Crashsafe.Methods
import Crashsafe.Repair
import Crashsafe.Timestamps
import Crashsafe.Library.Latest

/- The cooldown of a tool over any sequence of storage calls: the greatest deadline any
   committed retry gave the tool, with the error of the last one that gave it. -/
namespace Crashsafe
open Rows Replay Execution Latest

/-- The public methods that write. -/
inductive StorageCall where
  | transition (c : Call)
  | renewLease (runId ownerId : String) (fenceToken : Int) (leaseTtl : PyFloat) (now : Datetime)
  | releaseLease (runId ownerId : String) (fenceToken : Int) (now : Datetime)
  | rebuildProjection (runId : String)

/- `none` is a call that raises. -/
def perform (db : Database) : StorageCall → Option Database
  | .transition c => call db c
  | .renewLease runId ownerId fenceToken leaseTtl now =>
    (renewLease db runId ownerId fenceToken leaseTtl now).toOption.map Prod.fst
  | .releaseLease runId ownerId fenceToken now =>
    some (releaseLease db runId ownerId fenceToken now).1
  | .rebuildProjection runId => (rebuildRun db runId).toOption.map Prod.fst

/-- A retry that was scheduled with `throttle_tool`. -/
structure Cooldown where
  toolKey : String
  deadline : Datetime
  error : String

def Cooldown.throttle (c : Cooldown) (now : Datetime) : ToolThrottle :=
  ⟨c.toolKey, c.deadline, c.error, now⟩

def ToolThrottle.cooldown (t : ToolThrottle) : Cooldown := ⟨t.toolKey, t.blockedUntil, t.reason⟩

/-- The cooldown a call asks for, if it asks for one. -/
def cooldownOf (db : Database) : StorageCall → Option Cooldown
  | .transition (.scheduleRetry args error nextAttemptAt true) =>
    (getStepRow db args.runId args.stepId).toOption.map fun row =>
      ⟨row.toolKey, nextAttemptAt, error⟩
  | _ => none

/- A database with the cooldowns its calls have committed, in order. -/
abbrev Cooled := Database × List Cooldown

/-- One call. One that raises rolls back. -/
def Cooled.next (state : Cooled) (c : StorageCall) : Cooled :=
  match perform state.1 c with
  | none => state
  | some db => (db, state.2 ++ (cooldownOf state.1 c).toList)

def performAll (calls : List StorageCall) : Cooled := calls.foldl Cooled.next (emptyDatabase, [])

/- `get_tool_throttle`. -/
def getToolThrottle (db : Database) (toolKey : String) : Option ToolThrottle :=
  db.toolThrottles.find? fun t => t.toolKey = toolKey

section Calls
variable {db db' : Database}

theorem create_throttles {definition : WorkflowDefinition} {toolKey : Option String}
    {defaultToolKey runId : String} {now : Datetime}
    (h : createWorkflowRun db definition toolKey defaultToolKey runId now = .ok db') :
    db'.toolThrottles = db.toolThrottles := by
  unfold createWorkflowRun at h
  obtain ⟨withRun, insertedRun, h⟩ := bind_ok.mp h
  obtain ⟨withSteps, insertedSteps, h⟩ := bind_ok.mp h
  obtain ⟨withDependencies, insertedDependencies, h⟩ := bind_ok.mp h
  obtain ⟨_, rfl⟩ := insert_run_ok insertedRun
  obtain rfl := insert_steps_ok _ insertedSteps
  obtain rfl := insert_dependencies_ok _ insertedDependencies
  cases h
  rfl

theorem rebuild_throttles {runId : String} {rebuilt : WorkflowRun}
    {created : WorkflowRunCreatedPayload}
    (h : rebuildProjection db runId rebuilt created = .ok db') :
    db'.toolThrottles = db.toolThrottles := by
  unfold rebuildProjection at h
  obtain ⟨withRun, insertedRun, h⟩ := bind_ok.mp h
  obtain ⟨withSteps, insertedSteps, h⟩ := bind_ok.mp h
  obtain ⟨_, rfl⟩ := insert_run_ok insertedRun
  obtain rfl := insert_steps_ok _ insertedSteps
  obtain rfl := insert_dependencies_ok _ h
  rfl

theorem rebuild_run_throttles {runId : String} {run : WorkflowRun}
    (h : rebuildRun db runId = .ok (db', run)) : db'.toolThrottles = db.toolThrottles := by
  unfold rebuildRun at h
  split at h
  · cases h
  split at h
  · cases h
  split at h
  · cases h
  split at h
  · cases h
  rename_i written
  split at h
  · cases h
  · cases h
    exact rebuild_throttles written

variable {a : TransitionArgs}

theorem record_throttles {step : StepRecord}
    (h : recordAttempt db a.runId a.stepId a.ownerId a.fenceToken a.now a.leaseNow =
      .ok (db', step)) : db'.toolThrottles = db.toolThrottles := by
  unfold recordAttempt at h
  split at h
  · cases h
  split at h
  · cases h
  split at h
  · cases h
  split at h
  · cases h
  dsimp only at h
  split at h <;> cases h
  rfl

theorem fail_throttles {error : String}
    (h : failStep db a.runId a.stepId error a.ownerId a.fenceToken a.now a.leaseNow = .ok db') :
    db'.toolThrottles = db.toolThrottles := by
  unfold failStep at h
  split at h
  · cases h
  split at h <;> cases h
  rfl

theorem complete_throttles {output : Json}
    (h : completeStep db a.runId a.stepId output a.ownerId a.fenceToken a.now a.leaseNow =
      .ok db') : db'.toolThrottles = db.toolThrottles := by
  unfold completeStep at h
  split at h
  · cases h
  split at h
  · cases h
  split at h
  · cases h
    rfl
  dsimp only at h
  split at h <;> cases h <;> rfl

/-- A retry that commits writes the cooldown it asks for, and nothing if it asks for none. -/
theorem retry_throttles {error : String} {nextAttemptAt : Datetime} {throttleTool : Bool}
    (h : scheduleRetry db a.runId a.stepId error nextAttemptAt a.ownerId a.fenceToken throttleTool
      a.now a.leaseNow = .ok db') :
    match cooldownOf db (.transition (.scheduleRetry a error nextAttemptAt throttleTool)) with
    | none => db'.toolThrottles = db.toolThrottles
    | some c => db'.toolThrottles =
        upsert (·.toolKey) mergeThrottle (c.throttle a.now) db.toolThrottles := by
  unfold scheduleRetry at h
  split at h
  · cases h
  rename_i row found
  split at h
  · cases h
  dsimp only at h
  split at h <;> cases h
  · rename_i asked
    subst asked
    simp only [cooldownOf, found, Except.toOption, Option.map_some]
    rfl
  · rename_i quiet
    have none : throttleTool = false := by simpa using quiet
    subst none
    rfl

/-- What any call that returns does to the throttles. -/
theorem perform_throttles {c : StorageCall} (h : perform db c = some db') :
    match cooldownOf db c with
    | none => db'.toolThrottles = db.toolThrottles
    | some cooldown => ∃ now, db'.toolThrottles =
        upsert (·.toolKey) mergeThrottle (cooldown.throttle now) db.toolThrottles := by
  cases c with
  | renewLease runId ownerId fenceToken leaseTtl now =>
    obtain ⟨⟨after, renewed⟩, done, rfl⟩ := Option.map_eq_some_iff.mp h
    have done := to_option_some.mp done
    unfold renewLease at done
    split at done <;> cases done
    rfl
  | releaseLease runId ownerId fenceToken now =>
    cases h
    rfl
  | rebuildProjection runId =>
    obtain ⟨⟨after, run⟩, done, rfl⟩ := Option.map_eq_some_iff.mp h
    exact rebuild_run_throttles (to_option_some.mp done)
  | transition c =>
    cases c with
    | createWorkflowRun definition toolKey defaultToolKey runId now =>
      exact create_throttles (to_option_some.mp h)
    | claimRunnableStep ownerId leaseTtl now choice =>
      simp only [perform, call] at h
      split at h
      · cases h
      · cases h
        rfl
      · rename_i outcomes _ claims
        obtain ⟨⟨after, claim⟩, chosen, rfl⟩ := Option.map_eq_some_iff.mp h
        unfold claimRunnableStep at claims
        split at claims <;> cases claims
        obtain ⟨row, _, granted⟩ := List.mem_map.mp (List.mem_of_getElem? chosen)
        cases granted
        rfl
    | recordAttempt a =>
      obtain ⟨⟨after, step⟩, done, rfl⟩ := Option.map_eq_some_iff.mp h
      exact record_throttles (to_option_some.mp done)
    | scheduleRetry a error nextAttemptAt throttleTool =>
      have written := retry_throttles (to_option_some.mp h)
      revert written
      cases cooldownOf db (.transition (.scheduleRetry a error nextAttemptAt throttleTool)) with
      | none => exact id
      | some cooldown => exact fun same => ⟨a.now, same⟩
    | failStep a error => exact fail_throttles (to_option_some.mp h)
    | completeStep a output => exact complete_throttles (to_option_some.mp h)

end Calls

/-- Every throttle is the last of the greatest cooldowns its tool was given. -/
structure CooledSound (state : Cooled) : Prop where
  keys : (state.1.toolThrottles.map (·.toolKey)).Nodup
  greatest : ∀ t ∈ state.1.toolThrottles, IsLatestGreatest (·.deadline)
    (state.2.filter fun c => c.toolKey = t.toolKey) t.cooldown
  covered : ∀ c ∈ state.2, ∃ t ∈ state.1.toolThrottles, t.toolKey = c.toolKey

section Sound
variable {state : Cooled}

theorem filter_snoc_same {log : List Cooldown} {c : Cooldown} {toolKey : String}
    (same : c.toolKey = toolKey) :
    (log ++ [c]).filter (fun x => x.toolKey = toolKey) =
      log.filter (fun x => x.toolKey = toolKey) ++ [c] := by
  simp [same]

/-- The upsert keeps the longer deadline; at a tie the new reason wins. -/
theorem merge_latest {log : List Cooldown} {old : ToolThrottle} {c : Cooldown} (now : Datetime)
    (same : old.toolKey = c.toolKey) (h : IsLatestGreatest (·.deadline) log old.cooldown) :
    IsLatestGreatest (·.deadline) (log ++ [c]) (mergeThrottle old (c.throttle now)).cooldown := by
  by_cases longer : old.blockedUntil ≤ c.deadline
  · have taken : (mergeThrottle old (c.throttle now)).cooldown = c := by
      simp [mergeThrottle, ToolThrottle.cooldown, Cooldown.throttle, longer, same]
    rw [taken]
    exact latest_snoc_greater h longer
  · have kept : (mergeThrottle old (c.throttle now)).cooldown = old.cooldown := by
      simp [mergeThrottle, ToolThrottle.cooldown, Cooldown.throttle, longer, le_of_not_ge longer]
    rw [kept]
    exact latest_snoc_smaller h (not_le.mp longer)

theorem cooldown_sound {db : Database} {c : Cooldown} {now : Datetime} (h : CooledSound state)
    (written : db.toolThrottles =
      upsert (·.toolKey) mergeThrottle (c.throttle now) state.1.toolThrottles) :
    CooledSound (db, state.2 ++ [c]) := by
  refine ⟨?_, ?_, ?_⟩
  · simp only [written]
    exact upsert_keys_distinct (fun _ => rfl) h.keys
  · intro t member
    simp only [written] at member
    rcases mem_upsert.mp member with ⟨old, other⟩ | ⟨old, inside, same, rfl⟩ | ⟨rfl, none⟩
    · have untouched : (state.2 ++ [c]).filter (fun x => x.toolKey = t.toolKey) =
          state.2.filter fun x => x.toolKey = t.toolKey := by
        have differs : c.toolKey ≠ t.toolKey := fun same => other same.symm
        simp [differs]
      rw [untouched]
      exact h.greatest t old
    · have same : c.toolKey = old.toolKey := same.symm
      rw [show (mergeThrottle old (c.throttle now)).toolKey = old.toolKey from rfl,
        filter_snoc_same same]
      exact merge_latest now same.symm (h.greatest old inside)
    · have first : state.2.filter (fun x => x.toolKey = c.toolKey) = [] := by
        apply List.filter_eq_nil_iff.mpr
        intro x member same
        obtain ⟨t, inside, named⟩ := h.covered x member
        have tool : x.toolKey = c.toolKey := by simpa using same
        exact none t inside (named.trans tool)
      rw [show (c.throttle now).toolKey = c.toolKey from rfl, filter_snoc_same rfl, first]
      exact latest_singleton c
  · intro x member
    simp only [written]
    have kept : ∀ t ∈ state.1.toolThrottles, t.toolKey = x.toolKey →
        ∃ t ∈ upsert (·.toolKey) mergeThrottle (c.throttle now) state.1.toolThrottles,
          t.toolKey = x.toolKey := by
      intro t inside named
      by_cases here : t.toolKey = c.toolKey
      · exact ⟨_, mem_upsert.mpr (.inr (.inl ⟨t, inside, here, rfl⟩)), named⟩
      · exact ⟨t, mem_upsert.mpr (.inl ⟨inside, here⟩), named⟩
    rcases List.mem_append.mp member with old | new
    · obtain ⟨t, inside, named⟩ := h.covered x old
      exact kept t inside named
    · rw [List.mem_singleton.mp new] at kept ⊢
      by_cases some : ∃ t ∈ state.1.toolThrottles, t.toolKey = c.toolKey
      · obtain ⟨t, inside, named⟩ := some
        exact kept t inside named
      · push Not at some
        exact ⟨_, mem_upsert.mpr (.inr (.inr ⟨rfl, some⟩)), rfl⟩

theorem next_sound (h : CooledSound state) (c : StorageCall) : CooledSound (state.next c) := by
  unfold Cooled.next
  split
  · exact h
  · rename_i db done
    have written := perform_throttles done
    split at written
    · rename_i none
      simp only [none, Option.toList, List.append_nil]
      exact ⟨written ▸ h.keys, written ▸ h.greatest, written ▸ h.covered⟩
    · rename_i cooldown asked
      obtain ⟨now, written⟩ := written
      simp only [asked, Option.toList]
      exact cooldown_sound h written

theorem perform_all_sound (calls : List StorageCall) : CooledSound (performAll calls) := by
  refine List.foldlRecOn calls Cooled.next ?_ fun state h c _ => next_sound h c
  exact ⟨List.nodup_nil, by simp [emptyDatabase], by simp⟩

end Sound

/-- After any calls, a tool's throttle is its greatest committed cooldown with the last error
    given for it; claims wait for it and for the step's own deadline, and a tool without
    cooldowns is never held back. The comparisons may be of the stored texts. -/
theorem tool_cooldown (calls : List StorageCall) :
    (∀ toolKey,
      match getToolThrottle (performAll calls).1 toolKey with
      | none => ∀ c ∈ (performAll calls).2, c.toolKey ≠ toolKey
      | some t => t.toolKey = toolKey ∧
          IsGreatest {k | ∃ c ∈ (performAll calls).2, c.toolKey = toolKey ∧ c.deadline = k}
            t.blockedUntil ∧
          ∃ before after, ((performAll calls).2.filter fun c => c.toolKey = toolKey) =
            before ++ ⟨toolKey, t.blockedUntil, t.reason⟩ :: after ∧
              ∀ c ∈ after, c.deadline < t.blockedUntil) ∧
    (∀ ownerId leaseTtl now outcomes,
      claimRunnableStep (performAll calls).1 ownerId leaseTtl now = .ok outcomes →
      ∀ outcome ∈ outcomes,
        (∀ c ∈ (performAll calls).2, c.toolKey = outcome.2.step.toolKey → c.deadline ≤ now) ∧
        ∀ deadline ∈ outcome.2.step.nextAttemptAt, deadline ≤ now) ∧
    (∀ toolKey, (∀ c ∈ (performAll calls).2, c.toolKey ≠ toolKey) →
      ∀ now, throttleAllows (performAll calls).1 now toolKey = true) ∧
    ∀ a b : Civil, a.isoformat ≤ b.isoformat ↔ a.datetime ≤ b.datetime := by
  have sound := perform_all_sound calls
  generalize performAll calls = state at sound
  obtain ⟨db, log⟩ := state
  refine ⟨?_, ?_, ?_, isoformat_le_iff⟩
  · intro toolKey
    split
    · rename_i none
      intro c member same
      obtain ⟨t, inside, named⟩ := sound.covered c member
      exact List.find?_eq_none.mp none t inside (by simp [named, same])
    · rename_i t found
      have named : t.toolKey = toolKey := by simpa using List.find?_some found
      have greatest := sound.greatest t (List.mem_of_find?_eq_some found)
      rw [named] at greatest
      refine ⟨named, ?_, ?_⟩
      · have own : {k | ∃ c ∈ log, c.toolKey = toolKey ∧ c.deadline = k} =
            {k | ∃ c ∈ log.filter fun c => c.toolKey = toolKey, c.deadline = k} := by
          simp [List.mem_filter, and_assoc]
        rw [own]
        exact latest_isGreatest greatest
      · obtain ⟨before, after, split, _, later⟩ := greatest
        exact ⟨before, after, named ▸ split, later⟩
  · intro ownerId leaseTtl now outcomes claims outcome chosen
    obtain ⟨row, _, run, _, eligible, step⟩ := (claim_ok claims chosen).selected
    have tool : outcome.2.step.toolKey = row.toolKey := by rw [step]; rfl
    have waits : outcome.2.step.nextAttemptAt = row.nextAttemptAt := by rw [step]; rfl
    refine ⟨fun c member same => ?_, waits ▸ eligible.2.2.2.1⟩
    have allowed := eligible.2.2.2.2.1 rfl
    unfold throttleAllows at allowed
    split at allowed
    · rename_i none
      obtain ⟨t, inside, named⟩ := sound.covered c member
      exact absurd (by simp [named, same, tool]) (List.find?_eq_none.mp none t inside)
    · rename_i t found
      have named : t.toolKey = row.toolKey := by simpa using List.find?_some found
      have greatest := sound.greatest t (List.mem_of_find?_eq_some found)
      have bound := latest_bound greatest c
        (List.mem_filter.mpr ⟨member, by simp [same, tool, named]⟩)
      have free : t.blockedUntil ≤ now := by simpa using allowed
      exact bound.trans free
  · intro toolKey quiet now
    unfold throttleAllows
    split
    · rfl
    · rename_i t found
      have named : t.toolKey = toolKey := by simpa using List.find?_some found
      have member := latest_mem (sound.greatest t (List.mem_of_find?_eq_some found))
      obtain ⟨inside, same⟩ := List.mem_filter.mp member
      exact absurd ((by simpa using same : t.cooldown.toolKey = t.toolKey).trans named)
        (quiet _ inside)

end Crashsafe

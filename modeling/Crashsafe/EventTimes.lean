import Crashsafe.Punctuality
import Crashsafe.Timeline
import Crashsafe.Durations

/- Event times against sequence numbers. A transition stamps its events with a reading taken
   before it waits for the write lock; what makes the readings follow the order of the commits is
   that only the owner of the lease can commit to the run in the meantime. -/
namespace Crashsafe
open Rows Replay Execution

/-- The claim under which a process is about to write events, and the time they will have. -/
def Pc.stamp? : Pc → Option (ClaimedStep × Datetime)
  | .recording claim now | .committing claim _ _ now => some (claim, now)
  | _ => none

section Writes
variable {d : Deployment} {s t : State} {a : Action} {runId : String} {v w : RunView} {row : StepRow}
  {now : Datetime} {write : Write}

theorem move_stamps (move : RunMove runId v row now write w) :
    ∃ more, w.events = v.events ++ more ∧ ∀ e ∈ more, e.occurredAt = now := by
  cases move with
  | attempted | retried => exact ⟨_, rfl, by simp [eventOf]⟩
  | failed => exact ⟨_, List.append_assoc _ _ _, by simp [eventOf]⟩
  | completed output active w written =>
    rw [written]
    exact ⟨_, rfl, by simp [eventOf]⟩
  | finished output active w written =>
    rw [written]
    exact ⟨_, List.append_assoc _ _ _, by simp [eventOf]⟩

/-- New events carry a reading their writer holds, and the writer has the lease of the run or the
    run is new. -/
structure Stamped (s t : State) (runId : String) (p : Nat) (now : Datetime) : Prop where
  reading : (s.pc p).reading? = some now
  events : ∃ more, (t.db.view runId).events = (s.db.view runId).events ++ more ∧
    ∀ e ∈ more, e.occurredAt = now
  owner : (s.db.view runId).events = [] ∨ ∃ claim, (s.pc p).stamp? = some (claim, now) ∧
    claim.lease.runId = runId ∧ pairOf claim.lease ∈ (s.db.view runId).pairs

theorem events_stamped (guarded : Guarded s) (effect : Effect d s a t) (runId : String) :
    (t.db.view runId).events = (s.db.view runId).events ∨ ∃ p now, Stamped s t runId p now := by
  rcases events_effect guarded effect runId with same | appended
  · exact .inl same
  cases appended with
  | created p definition toolKey now was absent done =>
    have empty : (s.db.view runId).events = [] := by rw [absent]; rfl
    refine .inr ⟨p, now, by rw [was]; rfl, ⟨(t.db.view runId).events, by rw [empty]; rfl, ?_⟩, .inl empty⟩
    rw [(create_ok absent done).1]
    simp [projectionOf, creationEvent, eventOf]
  | recorded p claim now row was here pair member named move =>
    exact .inr ⟨p, now, by rw [was]; rfl, move_stamps move, .inr ⟨claim, by rw [was]; rfl, here, pair⟩⟩
  | decided p claim step decision now row was here pair move =>
    exact .inr ⟨p, now, by rw [was]; rfl, move_stamps move, .inr ⟨claim, by rw [was]; rfl, here, pair⟩⟩

end Writes

/- The invariant: what a process with the lease is about to write comes after everything there. -/
structure Chronological (c : Clocked) : Prop where
  ordered : ∀ runId, (c.state.db.view runId).events.Pairwise fun a b => a.occurredAt ≤ b.occurredAt
  past : ∀ runId, ∀ e ∈ (c.state.db.view runId).events, e.occurredAt ≤ c.clock
  stamps : ∀ q claim now, (c.state.pc q).stamp? = some (claim, now) →
    pairOf claim.lease ∈ (c.state.db.view claim.lease.runId).pairs →
    ∀ e ∈ (c.state.db.view claim.lease.runId).events, e.occurredAt ≤ now

section Kept
variable {d : Deployment} {c c' : Clocked} {s t : State} {a : Action} {q : Nat} {claim : ClaimedStep}
  {now : Datetime}

theorem stamp_reading {pc : Pc} (held : pc.stamp? = some (claim, now)) : pc.reading? = some now := by
  cases pc <;> simp_all [Pc.stamp?, Pc.reading?]

theorem stamp_claim {pc : Pc} (held : pc.stamp? = some (claim, now)) : pc.claim? = some claim := by
  cases pc <;> simp_all [Pc.stamp?, Pc.claim?]

/-- A process that is about to write and has the lease finds no event written since its reading. -/
theorem stamped_unchanged (guarded : Guarded s) (effect : Effect d s a t) (same : t.pc q = s.pc q)
    (held : (s.pc q).stamp? = some (claim, now))
    (pair : pairOf claim.lease ∈ (t.db.view claim.lease.runId).pairs) :
    pairOf claim.lease ∈ (s.db.view claim.lease.runId).pairs ∧
      (t.db.view claim.lease.runId).events = (s.db.view claim.lease.runId).events := by
  obtain ⟨before, change⟩ := held_change guarded effect (stamp_claim held) pair
  refine ⟨before, ?_⟩
  cases change with
  | kept rest =>
    have unchanged := congrArg RunView.events rest
    exact unchanged
  | recorded _ _ _ _ _ _ was after | decided _ _ _ _ _ was after =>
    rw [same, was] at after
    cases after

theorem chronological_step (guarded : Guarded c.state) (chronological : Chronological c)
    (readings : ∀ p now, (c.state.pc p).reading? = some now → now ≤ c.clock) (may : timely c a)
    (taken : clockedStep d c a = some c') : Chronological c' := by
  have forward := clock_forward may taken
  obtain ⟨t, stepped, rfl⟩ := Option.map_eq_some_iff.mp taken
  have effect := step_effect stepped
  refine ⟨fun runId => ?_, fun runId => ?_, ?_⟩
  · rcases events_stamped guarded effect runId with same | ⟨p, now, _, ⟨more, grown, times⟩, owner⟩
    · exact same ▸ chronological.ordered runId
    · have before : ∀ e ∈ (c.state.db.view runId).events, e.occurredAt ≤ now := by
        rcases owner with empty | ⟨claim, held, rfl, pair⟩
        · simp [empty]
        · exact chronological.stamps p claim now held pair
      simp only [grown]
      refine List.pairwise_append.mpr ⟨chronological.ordered runId, ?_, ?_⟩
      · apply List.pairwise_of_forall_mem_list
        intro x first y second
        rw [times x first, times y second]
      · intro x old y new
        rw [times y new]
        exact before x old
  · rcases events_stamped guarded effect runId with same | ⟨p, now, reading, ⟨more, grown, times⟩, _⟩
    · intro e member
      exact (chronological.past runId e (same ▸ member)).trans forward
    · intro e member
      simp only [grown] at member
      rcases List.mem_append.mp member with old | new
      · exact (chronological.past runId e old).trans forward
      · rw [times e new]
        exact (readings p now reading).trans forward
  · intro q claim now held pair e member
    rcases reading_effect stepped (stamp_reading held) with same | ⟨acted, kept⟩
    · have held' : (c.state.pc q).stamp? = some (claim, now) := same ▸ held
      obtain ⟨before, events⟩ := stamped_unchanged guarded effect same held' pair
      exact chronological.stamps q claim now held' before e (events ▸ member)
    · -- The reading has just been taken, and nothing is written yet that it does not come after.
      simp only [kept] at member
      exact (chronological.past _ e member).trans (may.2 now acted)

theorem chronological_start (clock : Datetime) : Chronological ⟨State.initial, clock⟩ where
  ordered _ := .nil
  past _ _ member := by cases member
  stamps _ _ _ held := by cases held

theorem chronological_reachable {clock : Datetime}
    (reached : Reachable (clockedStep d) timely ⟨State.initial, clock⟩ c) : Chronological c := by
  refine reachable_invariant (chronological_start clock) ?_ reached
  intro c a c' before chronological may taken
  have guarded := (faithful_reachable (clocked_reachable before)).guarded
  exact chronological_step guarded chronological (readings_past before) may taken

end Kept

section Timeline
variable {first : WorkflowRunEvent} {rest : List WorkflowRunEvent} {state : TimelineState}
  {run : WorkflowRun}

/- A timeline that never goes back. -/
structure Forward (timeline : WorkflowRunTimeline) : Prop where
  elapsedMs : timeline.entries.Pairwise fun a b => a.elapsedMs ≤ b.elapsedMs
  stepDurationMs : ∀ item ∈ timeline.summary.stepDurationMs, 0 ≤ item.2
  durationMs : 0 ≤ timeline.summary.durationMs

theorem told_forward (told : Told first.occurredAt (first :: rest) state)
    (ordered : (first :: rest).Pairwise fun a b => a.occurredAt ≤ b.occurredAt) :
    Forward (timelineOf run first rest state) := by
  have since : ∀ e ∈ first :: rest, first.occurredAt ≤ e.occurredAt := by
    intro e member
    rcases List.mem_cons.mp member with rfl | later
    · exact le_rfl
    · exact (List.pairwise_cons.mp ordered).1 e later
  refine ⟨?_, ?_, ?_⟩
  · have listed : state.entries.map (·.elapsedMs) =
        (first :: rest).map fun e => milliseconds (e.occurredAt - first.occurredAt) := by
      rw [← List.forall₂_eq_eq_eq, List.forall₂_map_left_iff, List.forall₂_map_right_iff]
      exact told.entries.imp fun entry e describes => describes.elapsedMs
    have sorted : ((first :: rest).map fun e =>
        milliseconds (e.occurredAt - first.occurredAt)).Pairwise (· ≤ ·) := by
      refine List.pairwise_map.mpr (ordered.imp_of_mem fun inside _ le => ?_)
      exact milliseconds_mono (sub_nonneg.mpr (since _ inside)) (sub_le_sub_right le _)
    rw [← listed] at sorted
    exact List.pairwise_map.mp sorted
  · intro item member
    obtain ⟨a, e, within, duration⟩ := told.durations item member
    have le : a.occurredAt ≤ e.occurredAt := by simpa using ordered.sublist within
    rw [duration]
    exact milliseconds_nonneg (sub_nonneg.mpr le)
  · exact milliseconds_nonneg (sub_nonneg.mpr (since _ (List.getLast_mem _)))

end Timeline

/-- One clock and the lease keep the times of a run's events in the order of its sequence, and its
    timeline in the order of its events. -/
theorem history_time_forward {d : Deployment} {clock : Datetime} {c : Clocked}
    (reached : Reachable (clockedStep d) timely ⟨State.initial, clock⟩ c) {runId : String}
    {events : List WorkflowRunEvent} (listed : listEvents c.state.db runId = .ok events)
    (str : Json → String) :
    events.Pairwise (fun a b => a.occurredAt ≤ b.occurredAt) ∧
      ∃ timeline, buildTimeline str events = .ok timeline ∧ Forward timeline := by
  have faithful := faithful_reachable (clocked_reachable reached)
  have tidy := faithful.guarded.coherent.tidy runId
  have ordered := (chronological_reachable reached).ordered runId
  have same := list_events_ok tidy listed
  obtain ⟨first, rest, shape⟩ : ∃ first rest, events = first :: rest := by
    unfold listEvents at listed
    split at listed <;> cases listed
    exact ⟨_, _, rfl⟩
  obtain ⟨run, consistent⟩ := history_consistent faithful (by rw [← same, shape]; simp)
  have accepted := consistent_accepted tidy consistent
  rw [← same] at ordered accepted
  subst shape
  obtain ⟨state, told, built⟩ := build_timeline_told str accepted
  exact ⟨ordered, _, built, told_forward told ordered⟩

/- In `retriedCharge` the charge is retried in time. -/
theorem retried_charge_forward :
    ∃ c events, runWhere (clockedStep sharedWorker) timely ⟨State.initial, 0⟩ retriedCharge = some c ∧
      listEvents c.state.db "a1" = .ok events ∧
      events.Pairwise (fun a b => a.occurredAt ≤ b.occurredAt) ∧
      ∃ timeline, buildTimeline (fun _ => "charge_1") events = .ok timeline ∧ Forward timeline := by
  have listed : ((runWhere (clockedStep sharedWorker) timely ⟨State.initial, 0⟩ retriedCharge).bind
      fun c => (listEvents c.state.db "a1").toOption.map List.length) = some 4 := by
    decide +kernel
  obtain ⟨c, ran, listed⟩ := Option.bind_eq_some_iff.mp listed
  obtain ⟨events, listed, _⟩ := Option.map_eq_some_iff.mp listed
  have listed := to_option_some.mp listed
  exact ⟨c, events, ran, listed,
    history_time_forward (reachable_runWhere retriedCharge .start ran) listed (fun _ => "charge_1")⟩

end Crashsafe

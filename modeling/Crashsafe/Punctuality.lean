import Crashsafe.Requests

/- Retries and the clock. A claim looks at the retry deadline and the attempt it leads to does
   not; the lease in between keeps everybody else from setting another deadline. -/
namespace Crashsafe
open Rows Replay Execution

/-- The deadline a retry event sets for a step. -/
def retryDeadline (stepId : String) (event : WorkflowRunEvent) : Option Datetime :=
  match event.payload with
  | some (.stepRetryScheduled retry) =>
    if event.stepId = some stepId then some retry.nextAttemptAt else none
  | _ => none

section History
variable {runId : String} {before after : List WorkflowRunEvent} {r : WorkflowRunEvent}
  {run : WorkflowRun} {last : Int} {step : StepRecord} {deadline : Datetime}

theorem retry_deadline_some {stepId : String} (h : retryDeadline stepId r = some deadline) :
    r.stepId = some stepId ∧ ∃ error, r.payload = some (.stepRetryScheduled ⟨error, deadline⟩) := by
  unfold retryDeadline at h
  split at h
  · rename_i retry payload
    split at h
    · rename_i named
      cases h
      exact ⟨named, retry.error, payload⟩
    · cases h
  · cases h

/-- Until its next attempt a step keeps the deadline of its last retry. -/
theorem retry_waits (folded : foldHistory runId (before ++ r :: after) = .ok (some run, last))
    (retried : retryDeadline step.id r = some deadline)
    (quiet : ∀ x ∈ after, isAttemptOf step.id x = false) (member : step ∈ run.steps) :
    step.nextAttemptAt = some deadline := by
  obtain ⟨named, error, payload⟩ := retry_deadline_some retried
  induction after using List.reverseRecOn generalizing run last step with
  | nil =>
    obtain ⟨middle, earlier, taken⟩ := replay_snoc_ok.mp folded
    have state := fold_state_sound earlier
    obtain ⟨_, _, _, run', result, move⟩ := reduce_event_ok taken
    cases result
    rcases move with ⟨created, _, creation, _⟩ | ⟨run₀, current, _, advance⟩
    · simp [creation.payload] at payload
    · obtain ⟨_, _, sound⟩ := state
      rw [current] at sound
      obtain ⟨_, _, sound⟩ := sound
      cases advance with
      | completed kind payload' => simp [payload'] at payload
      | failed failed step' kind payload' => simp [payload'] at payload
      | step index old next stepId named' found advance =>
        obtain ⟨present, sameId⟩ := find_step_with_index_ok found
        have mine : step.id = old.id := by
          rw [named, Option.some.injEq] at named'
          rw [sameId, named']
        rcases mem_set_step sound.distinct present member with rfl | ⟨_, differs⟩
        · cases advance with
          | retryScheduled retry kind payload' =>
            rw [payload'] at payload
            cases payload
            rfl
          | attemptStarted _ _ payload' | completed _ _ payload' | failed _ _ payload' =>
            simp [payload'] at payload
        · exact absurd mine differs
  | append_singleton front x ih =>
    rw [show before ++ r :: (front ++ [x]) = (before ++ r :: front) ++ [x] by simp] at folded
    obtain ⟨⟨seen, n⟩, earlier, taken⟩ := replay_snoc_ok.mp folded
    have state := fold_state_sound earlier
    have quietFront : ∀ y ∈ front, isAttemptOf step.id y = false := fun y inside =>
      quiet y (List.mem_append_left _ inside)
    obtain ⟨_, _, _, run', result, move⟩ := reduce_event_ok taken
    cases result
    rcases move with ⟨created, first, _⟩ | ⟨run₀, current, _, advance⟩
    · obtain ⟨_, _, none⟩ := state
      rw [first] at none
      simp at none
    · obtain ⟨_, _, sound⟩ := state
      rw [current] at sound
      obtain ⟨_, _, sound⟩ := sound
      cases current
      cases advance with
      | completed => exact ih earlier retried quietFront member named
      | failed => exact ih earlier retried quietFront member named
      | step index old next stepId named' found advance =>
        obtain ⟨present, sameId⟩ := find_step_with_index_ok found
        have inside := List.mem_of_getElem? present
        rcases mem_set_step sound.distinct present member with rfl | ⟨before', _⟩
        · -- The event is another one of this step: it cannot be taken while the step waits.
          have sameStep := advance_keeps_id advance
          rw [sameStep] at retried quiet quietFront named
          have waiting := ih earlier retried quietFront inside named
          have status : old.status = .retryWait :=
            (sound.fields old inside).nextAttemptAt.mp (by simp [waiting])
          have other := quiet x (by simp)
          cases advance with
          | attemptStarted _ kind => simp [isAttemptOf, kind, named', sameId] at other
          | retryScheduled _ _ _ active | completed _ _ _ active | failed _ _ _ active =>
            simp [status] at active
        · exact ih earlier retried quietFront before' named

end History

section Clock

/-- The clock reading an action takes. -/
def Action.reading? : Action → Option Datetime
  | .beginCreate _ _ _ _ now | .beginClaim _ now | .beginRecord _ now | .commitRecord _ now
  | .resolve _ _ now | .beginDecision _ now | .commitDecision _ now | .beginRelease _ now
  | .readHeartbeat _ now => some now
  | _ => none

/- The system with the latest reading any process has taken of the clock they share. -/
structure Clocked where
  state : State
  clock : Datetime

def clockedStep (d : Deployment) (c : Clocked) (a : Action) : Option Clocked :=
  (step d c.state a).map fun t => ⟨t, a.reading?.getD c.clock⟩

/-- The clock does not go back, and nobody rebuilds. -/
def timely (c : Clocked) (a : Action) : Prop :=
  noRebuild c.state a ∧ ∀ now ∈ a.reading?, c.clock ≤ now

instance (c : Clocked) (a : Action) : Decidable (timely c a) :=
  decidable_of_iff ((a matches .readHistory ..) = false ∧ ∀ now ∈ a.reading?, c.clock ≤ now) <|
    and_congr_left' <| by cases a <;> simp [noRebuild]

variable {d : Deployment}

theorem clocked_reachable {start c : Clocked}
    (reached : Reachable (clockedStep d) timely start c) :
    Reachable (step d) noRebuild start.state c.state := by
  refine reachable_project Clocked.state ?_ reached
  intro c a c' _ may taken
  obtain ⟨t, stepped, rfl⟩ := Option.map_eq_some_iff.mp taken
  exact .inr ⟨a, may.1, stepped⟩

theorem clock_forward {c c' : Clocked} {a : Action} (may : timely c a)
    (taken : clockedStep d c a = some c') : c.clock ≤ c'.clock := by
  obtain ⟨t, _, rfl⟩ := Option.map_eq_some_iff.mp taken
  cases read : a.reading? with
  | none => simp
  | some later => simpa [read] using may.2 later read

/-- What one step does to the readings a process still holds for a claim or an attempt. -/
inductive Scheduled (d : Deployment) (s t : State) (a : Action) (q : Nat) : Prop where
  | same (pc : t.pc q = s.pc q)
  | claiming (now : Datetime) (acted : a = .beginClaim q now) (pc : t.pc q = .claiming now)
  | claimed (now : Datetime) (claim : ClaimedStep) (was : s.pc q = .claiming now)
      (granted : Granted s.db (d.workerId q) now t.db claim) (pc : t.pc q = .claimed claim)
  | recording (claim : ClaimedStep) (now : Datetime) (acted : a = .beginRecord q now)
      (was : s.pc q = .claimed claim) (sameDb : t.db = s.db) (pc : t.pc q = .recording claim now)
  | past (none : (t.pc q).unrecorded? = none) (idle : ∀ now, t.pc q ≠ .claiming now)

variable {s t : State} {a : Action} {q : Nat}

theorem scheduled_goto {p : Nat} {pc : Pc} (written : t.pc = (s.goto p pc).pc)
    (none : pc.unrecorded? = none) (idle : ∀ now, pc ≠ .claiming now) : Scheduled d s t a q := by
  by_cases here : q = p
  · subst here
    exact .past (by rw [written, goto_same, none]) (by rw [written, goto_same]; exact idle)
  · exact .same (by rw [written, goto_other here])

theorem step_scheduled (taken : step d s a = some t) : Scheduled d s t a q := by
  cases a with
  | beginClaim p now =>
    simp only [step] at taken
    split at taken <;> cases taken
    by_cases here : q = p
    · subst here
      exact .claiming now rfl goto_same
    · exact .same (goto_other here)
  | commitClaim p choice =>
    simp only [step] at taken
    split at taken
    · rename_i now was
      split at taken
      · cases taken
        exact scheduled_goto rfl rfl fun _ => Pc.noConfusion
      · cases taken
        exact scheduled_goto rfl rfl fun _ => Pc.noConfusion
      · rename_i outcomes _ claims
        obtain ⟨⟨db, claim⟩, chosen, same⟩ := Option.map_eq_some_iff.mp taken
        cases same
        by_cases here : q = p
        · subst here
          exact .claimed now claim was (claim_ok claims (List.mem_of_getElem? chosen)) goto_same
        · exact .same (goto_other here)
    · cases taken
  | beginRecord p now =>
    simp only [step] at taken
    split at taken
    · rename_i claim was
      cases taken
      by_cases here : q = p
      · subst here
        exact .recording claim now rfl was rfl goto_same
      · exact .same (goto_other here)
    · cases taken
  | readHeartbeat i now =>
    obtain ⟨_, _, rfl⟩ := Option.map_eq_some_iff.mp taken
    exact .same rfl
  | renewHeartbeat i =>
    simp only [step] at taken
    split at taken
    · split at taken <;> cases taken <;> exact .same rfl
    · cases taken
  | readHistory p runId =>
    simp only [step] at taken
    split at taken
    · split at taken
      · cases taken
        exact .same rfl
      · split at taken <;> cases taken
        · exact .same rfl
        · exact scheduled_goto rfl rfl fun _ => Pc.noConfusion
    · cases taken
  | _ =>
    -- Every other position an action leads to holds no reading.
    simp only [step] at taken
    repeat' split at taken
    all_goals cases taken
    all_goals exact scheduled_goto rfl rfl fun _ => Pc.noConfusion

/-- The reading a process holds for the transaction it is about to start. -/
def Pc.reading? : Pc → Option Datetime
  | .creating _ _ _ now | .claiming now | .recording _ now | .committing _ _ _ now
  | .releasing _ now => some now
  | _ => none

theorem reading_goto {p : Nat} {pc : Pc} {now : Datetime} (written : t.pc = (s.goto p pc).pc)
    (fresh : pc.reading? = none ∨ pc.reading? = a.reading? ∧ t.db = s.db)
    (held : (t.pc q).reading? = some now) :
    t.pc q = s.pc q ∨ a.reading? = some now ∧ t.db = s.db := by
  by_cases here : q = p
  · subst here
    rw [written, goto_same] at held
    rcases fresh with none | ⟨same, kept⟩
    · rw [none] at held
      cases held
    · exact .inr ⟨same ▸ held, kept⟩
  · exact .inl (by rw [written, goto_other here])

/-- A process that holds a reading has not moved or has just taken it, and then wrote nothing. -/
theorem reading_effect (taken : step d s a = some t) {now : Datetime}
    (held : (t.pc q).reading? = some now) :
    t.pc q = s.pc q ∨ a.reading? = some now ∧ t.db = s.db := by
  cases a with
  | beginCreate | beginClaim | beginRecord | beginDecision | beginRelease =>
    simp only [step] at taken
    repeat' split at taken
    all_goals cases taken
    all_goals exact reading_goto rfl (.inr ⟨rfl, rfl⟩) held
  | commitClaim p choice =>
    simp only [step] at taken
    split at taken
    · split at taken
      · cases taken
        exact reading_goto rfl (.inl rfl) held
      · cases taken
        exact reading_goto rfl (.inl rfl) held
      · obtain ⟨⟨db, claim⟩, _, same⟩ := Option.map_eq_some_iff.mp taken
        cases same
        exact reading_goto rfl (.inl rfl) held
    · cases taken
  | readHeartbeat i now =>
    obtain ⟨_, _, rfl⟩ := Option.map_eq_some_iff.mp taken
    exact .inl rfl
  | renewHeartbeat i =>
    simp only [step] at taken
    repeat' split at taken
    all_goals cases taken
    all_goals exact .inl rfl
  | readHistory p runId =>
    simp only [step] at taken
    split at taken
    · split at taken
      · cases taken
        exact .inl rfl
      · split at taken <;> cases taken
        · exact .inl rfl
        · exact reading_goto rfl (.inl rfl) held
    · cases taken
  | _ =>
    simp only [step] at taken
    repeat' split at taken
    all_goals cases taken
    all_goals exact reading_goto rfl (.inl rfl) held

/-- Readings still held are not ahead of the clock. -/
theorem readings_past {c : Clocked} {clock : Datetime}
    (reached : Reachable (clockedStep d) timely ⟨State.initial, clock⟩ c) :
    ∀ p now, (c.state.pc p).reading? = some now → now ≤ c.clock := by
  refine reachable_invariant (P := fun c : Clocked =>
    ∀ p now, (c.state.pc p).reading? = some now → now ≤ c.clock) (fun _ _ held => by cases held) ?_ reached
  intro c a c' _ past may taken p now held
  have forward := clock_forward may taken
  obtain ⟨t, stepped, rfl⟩ := Option.map_eq_some_iff.mp taken
  rcases reading_effect stepped held with before | ⟨acted, _⟩
  · exact (past p now (before ▸ held)).trans forward
  · simp [acted]

end Clock

section Growth
variable {d : Deployment} {s t : State} {a : Action} {runId : String}

theorem move_appends {v w : RunView} {row : StepRow} {now : Datetime} {write : Write}
    (move : RunMove runId v row now write w) (other : ∀ o f, write ≠ .attempt o f) :
    ∃ more, w.events = v.events ++ more ∧ ∀ e ∈ more, e.eventType ≠ .stepAttemptStarted := by
  cases move with
  | attempted o f => exact absurd rfl (other o f)
  | retried error nextAttemptAt active =>
    exact ⟨_, rfl, by simp [eventOf, EventPayload.eventType]⟩
  | failed error active =>
    exact ⟨_, List.append_assoc _ _ _, by simp [eventOf, EventPayload.eventType]⟩
  | completed output active w written more =>
    rw [written]
    exact ⟨_, rfl, by simp [eventOf, EventPayload.eventType]⟩
  | finished output active w written all =>
    rw [written]
    exact ⟨_, List.append_assoc _ _ _, by simp [eventOf, EventPayload.eventType]⟩

/-- The attempt a worker records: its claim still holds the lease. -/
structure Recorded (s t : State) (runId : String) (claim : ClaimedStep) (now : Datetime)
    (row : StepRow) : Prop where
  worker : ∃ p, s.pc p = .recording claim now
  here : claim.lease.runId = runId
  member : row ∈ (s.db.view runId).steps
  named : row.id = claim.step.id
  pair : pairOf claim.lease ∈ (s.db.view runId).pairs
  events : ∃ version, (t.db.view runId).events = (s.db.view runId).events ++
    [eventOf runId (s.db.view runId).events
      (attemptPayload row (some claim.lease.ownerId) (some claim.lease.fenceToken)) now (some row.id)
      (some (row.attempts + 1)) version]

/-- A history grows by the attempt of a worker or by events that are no attempts. -/
theorem events_grow (guarded : Guarded s) (effect : Effect d s a t) (runId : String) :
    (∃ more, (t.db.view runId).events = (s.db.view runId).events ++ more ∧
      ∀ e ∈ more, e.eventType ≠ .stepAttemptStarted) ∨
      ∃ claim now row, Recorded s t runId claim now row := by
  rcases events_effect guarded effect runId with same | appended
  · exact .inl ⟨[], by simpa using same, by simp⟩
  cases appended with
  | created p definition toolKey now was absent done =>
    refine .inl ⟨(t.db.view runId).events, by rw [absent]; rfl, ?_⟩
    rw [(create_ok absent done).1]
    simp [projectionOf, creationEvent, eventOf, EventPayload.eventType]
  | recorded p claim now row was here pair member named move =>
    refine .inr ⟨claim, now, row, ⟨p, was⟩, here, member, named, pair, ?_⟩
    generalize t.db.view runId = w at move
    cases move
    exact ⟨_, rfl⟩
  | decided p claim step decision now row was here pair move =>
    exact .inl (move_appends move (by cases decision <;> simp [Decision.write]))

end Growth

/-- The step of a claim that still holds the lease waits for nothing later than `bound`. -/
def Due (db : Database) (claim : ClaimedStep) (bound : Datetime) : Prop :=
  pairOf claim.lease ∈ (db.view claim.lease.runId).pairs →
    ∀ row ∈ (db.view claim.lease.runId).steps, row.id = claim.step.id →
      ∀ deadline ∈ row.nextAttemptAt, deadline ≤ bound

section Claims
variable {d : Deployment} {s t : State} {a : Action} {q : Nat} {claim : ClaimedStep}
  {bound : Datetime}

theorem due_granted (coherent : Coherent s) {owner : String} {now : Datetime}
    (granted : Granted s.db owner now t.db claim) : Due t.db claim now := by
  intro _ row member named deadline waits
  rw [granted.rest] at member
  obtain ⟨selected, inside, run, _, eligible, step⟩ := granted.selected
  have self : row = selected := by
    apply List.inj_on_of_nodup_map (coherent.tidy claim.lease.runId).distinct member inside
    rw [named, step]
    rfl
  subst self
  exact eligible.2.2.2.1 deadline waits

/-- While a worker holds its claim, nobody else can write to the run without taking it over. -/
theorem due_kept (guarded : Guarded s) (effect : Effect d s a t)
    (held : (s.pc q).unrecorded? = some claim) (same : t.pc q = s.pc q)
    (before : Due s.db claim bound) : Due t.db claim bound := by
  intro pair row member named
  obtain ⟨pair, change⟩ := held_change guarded effect (unrecorded_claim held) pair
  cases change with
  | kept rest =>
    rw [rest] at member
    exact before pair row member named
  | recorded _ _ _ _ _ _ was after =>
    rw [same, was] at after
    cases after
  | decided _ _ _ _ _ was =>
    rw [was] at held
    cases held

end Claims

/-- No attempt is earlier than the deadline that the last retry of its step set. -/
def Punctual (events : List WorkflowRunEvent) : Prop :=
  ∀ before r between e after stepId deadline,
    events = before ++ r :: between ++ e :: after → retryDeadline stepId r = some deadline →
    (∀ x ∈ between, isAttemptOf stepId x = false) → isAttemptOf stepId e = true →
    deadline ≤ e.occurredAt

section Lists
variable {events more : List WorkflowRunEvent} {e : WorkflowRunEvent}

theorem punctual_append (h : Punctual events)
    (none : ∀ x ∈ more, x.eventType ≠ .stepAttemptStarted) : Punctual (events ++ more) := by
  intro before r between e after stepId deadline split retried quiet attempt
  have kind : e.eventType = .stepAttemptStarted := by
    simp only [isAttemptOf, decide_eq_true_eq] at attempt
    exact attempt.1
  rcases List.append_eq_append_iff.mp split with ⟨middle, cut, new⟩ | ⟨middle, cut, new⟩
  · exact absurd kind (none e (by simp [new]))
  · cases middle with
    | nil => exact absurd kind (none e (by simp [← show e :: after = more from new]))
    | cons first middle =>
      obtain rfl := (List.cons.inj new).1
      exact h before r between e middle stepId deadline cut retried quiet attempt

theorem punctual_snoc (h : Punctual events)
    (late : ∀ before r between stepId deadline, events = before ++ r :: between →
      retryDeadline stepId r = some deadline → (∀ x ∈ between, isAttemptOf stepId x = false) →
      isAttemptOf stepId e = true → deadline ≤ e.occurredAt) : Punctual (events ++ [e]) := by
  intro before r between x after stepId deadline split retried quiet attempt
  rcases List.eq_nil_or_concat after with empty | ⟨front, last, shape⟩
  · subst empty
    obtain ⟨same, lasts⟩ := List.append_inj' split rfl
    obtain rfl := (List.cons.inj lasts).1
    exact late before r between stepId deadline same retried quiet attempt
  · subst shape
    have cut : events ++ [e] = (before ++ r :: between ++ x :: front) ++ [last] := by
      simpa using split
    exact h before r between x front stepId deadline (List.append_inj' cut rfl).1 retried quiet attempt

end Lists

/-- The reading the attempt of a position's claim will carry is at least this one. -/
def Pc.due? (clock : Datetime) : Pc → Option (ClaimedStep × Datetime)
  | .claimed claim => some (claim, clock)
  | .recording claim now => some (claim, now)
  | _ => none

/- The invariant of executions under one clock. -/
structure Timed (c : Clocked) : Prop where
  faithful : Faithful c.state
  claiming : ∀ p now, c.state.pc p = .claiming now → now ≤ c.clock
  due : ∀ p claim bound, (c.state.pc p).due? c.clock = some (claim, bound) →
    Due c.state.db claim bound
  punctual : ∀ runId, Punctual (c.state.db.view runId).events

section Kept
variable {d : Deployment} {c c' : Clocked} {s t : State} {a : Action}

theorem due_unrecorded {pc : Pc} {clock bound : Datetime} {claim : ClaimedStep}
    (held : pc.due? clock = some (claim, bound)) : pc.unrecorded? = some claim := by
  cases pc <;> simp_all [Pc.due?, Pc.unrecorded?]

theorem due_later {db : Database} {claim : ClaimedStep} {bound later : Datetime} (le : bound ≤ later)
    (h : Due db claim bound) : Due db claim later :=
  fun pair row member named deadline waits => (h pair row member named deadline waits).trans le

theorem punctual_effect (faithful : Faithful s) (effect : Effect d s a t)
    (due : ∀ p claim now, s.pc p = .recording claim now → Due s.db claim now) {runId : String}
    (before : Punctual (s.db.view runId).events) : Punctual (t.db.view runId).events := by
  rcases events_grow faithful.guarded effect runId with
    ⟨more, grown, none⟩ | ⟨claim, now, row, recorded⟩
  · rw [grown]
    exact punctual_append before none
  obtain ⟨⟨p, was⟩, here, member, named, pair, version, grown⟩ := recorded
  rw [grown]
  apply punctual_snoc before
  intro front r between stepId deadline shape retried quiet attempt
  obtain ⟨run, consistent⟩ := row_consistent faithful member
  have mine : stepId = row.id := by
    simp only [isAttemptOf, eventOf, decide_eq_true_eq, Option.some.injEq] at attempt
    exact attempt.2.symm
  subst mine
  have read := row_read consistent member
  have folded := consistent.folded
  rw [shape] at folded
  have waits : row.nextAttemptAt = some deadline := retry_waits folded retried quiet read
  exact due p claim now was (here ▸ pair) row (here ▸ member) named deadline (by simp [waits])

theorem timed_step (timed : Timed c) (faithful : Faithful c'.state) (may : timely c a)
    (taken : clockedStep d c a = some c') : Timed c' := by
  have forward := clock_forward may taken
  obtain ⟨t, stepped, rfl⟩ := Option.map_eq_some_iff.mp taken
  have effect := step_effect stepped
  have guarded := timed.faithful.guarded
  refine ⟨faithful, ?_, ?_, fun runId => punctual_effect timed.faithful effect ?_ (timed.punctual runId)⟩
  · intro p now held
    simp only at held
    cases step_scheduled stepped (q := p) with
    | same pc => exact (timed.claiming p now (pc ▸ held)).trans forward
    | claiming now' acted pc =>
      rw [pc] at held
      cases held
      simp [acted, Action.reading?]
    | claimed _ _ _ _ pc | recording _ _ _ _ _ pc =>
      rw [pc] at held
      cases held
    | past _ idle => exact absurd held (idle now)
  · intro p claim bound held
    simp only at held
    cases step_scheduled stepped (q := p) with
    | same pc =>
      have unrecorded := due_unrecorded held
      rw [pc] at held unrecorded
      apply due_kept guarded effect unrecorded pc
      cases was : c.state.pc p with
      | claimed claim' =>
        rw [was] at held
        cases held
        exact due_later forward (timed.due p claim c.clock (by rw [was]; rfl))
      | recording claim' now =>
        rw [was] at held
        cases held
        exact timed.due p claim bound (by rw [was]; rfl)
      | _ =>
        rw [was] at held
        cases held
    | claiming now' acted pc =>
      rw [pc] at held
      cases held
    | claimed now claim' was granted pc =>
      rw [pc] at held
      cases held
      exact due_later ((timed.claiming p now was).trans forward)
        (due_granted guarded.coherent granted)
    | recording claim' now acted was sameDb pc =>
      rw [pc] at held
      cases held
      have before := timed.due p claim c.clock (by rw [was]; rfl)
      simp only [sameDb]
      exact due_later (may.2 bound (by simp [acted, Action.reading?])) before
    | past none _ =>
      rw [due_unrecorded held] at none
      cases none
  · exact fun p claim now was => timed.due p claim now (by rw [was]; rfl)

theorem timed_start (clock : Datetime) : Timed ⟨State.initial, clock⟩ := by
  refine ⟨faithful_start, ?_, ?_, ?_⟩
  · intro p now held
    cases held
  · intro p claim bound held
    cases held
  · intro runId before r between e after stepId deadline split
    simp [Database.view, Database.eventsOf, State.initial, emptyDatabase, ofKey] at split

theorem timed_reachable {clock : Datetime}
    (reached : Reachable (clockedStep d) timely ⟨State.initial, clock⟩ c) : Timed c := by
  refine reachable_invariant (timed_start clock) ?_ reached
  intro c a c' before timed may taken
  exact timed_step timed (faithful_reachable (clocked_reachable (.next before may taken))) may taken

end Kept

/-- The attempt that follows a retry is never before the retry's deadline. -/
theorem retries_never_early {d : Deployment} {clock : Datetime} {c : Clocked}
    (reached : Reachable (clockedStep d) timely ⟨State.initial, clock⟩ c) {runId stepId : String}
    {events before between after : List WorkflowRunEvent} {r e : WorkflowRunEvent}
    {retry : StepRetryScheduledPayload} (listed : listEvents c.state.db runId = .ok events)
    (split : events = before ++ r :: between ++ e :: after)
    (retried : r.stepId = some stepId ∧ r.payload = some (.stepRetryScheduled retry))
    (attempted : isAttemptOf stepId e = true)
    (next : ∀ x ∈ between, isAttemptOf stepId x = false) :
    retry.nextAttemptAt ≤ e.occurredAt := by
  have timed := timed_reachable reached
  have same := list_events_ok (timed.faithful.guarded.coherent.tidy runId) listed
  refine timed.punctual runId before r between e after stepId _ (same.symm.trans split) ?_ next attempted
  simp [retryDeadline, retried]

/- The retry in `retriedCharge` waits until 1000005. -/
theorem retried_charge_on_time :
    ∃ c, runWhere (clockedStep sharedWorker) timely ⟨State.initial, 0⟩ retriedCharge = some c ∧
      ∃ e₀ e₁ r e, listEvents c.state.db "a1" = .ok ([e₀, e₁] ++ r :: [] ++ e :: []) ∧
        retryDeadline "charge" r = some 1000005 ∧ isAttemptOf "charge" e = true ∧
        (1000005 : Datetime) ≤ e.occurredAt := by
  have listed : (runWhere (clockedStep sharedWorker) timely ⟨State.initial, 0⟩ retriedCharge).map
      (fun c => (listEvents c.state.db "a1").toOption.map
        (List.map fun e => (retryDeadline "charge" e, isAttemptOf "charge" e))) =
      some (some [(none, false), (none, true), (some 1000005, false), (none, true)]) := by
    decide +kernel
  obtain ⟨c, ran, listed⟩ := Option.map_eq_some_iff.mp listed
  obtain ⟨events, listed, kinds⟩ := Option.map_eq_some_iff.mp listed
  have listed := to_option_some.mp listed
  obtain ⟨e₀, rest, rfl, _, kinds⟩ := List.map_eq_cons_iff.mp kinds
  obtain ⟨e₁, rest, rfl, _, kinds⟩ := List.map_eq_cons_iff.mp kinds
  obtain ⟨r, rest, rfl, kind, kinds⟩ := List.map_eq_cons_iff.mp kinds
  obtain ⟨e, rest, rfl, attempt, kinds⟩ := List.map_eq_cons_iff.mp kinds
  obtain rfl := List.map_eq_nil_iff.mp kinds
  have retried : retryDeadline "charge" r = some 1000005 := congrArg Prod.fst kind
  have attempted : isAttemptOf "charge" e = true := congrArg Prod.snd attempt
  obtain ⟨named, error, payload⟩ := retry_deadline_some retried
  have split : [e₀, e₁, r, e] = [e₀, e₁] ++ r :: [] ++ e :: [] := rfl
  exact ⟨c, ran, e₀, e₁, r, e, listed, retried, attempted,
    retries_never_early (reachable_runWhere retriedCharge .start ran) listed split
      ⟨named, payload⟩ attempted (by simp)⟩

end Crashsafe

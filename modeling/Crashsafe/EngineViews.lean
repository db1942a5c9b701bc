import Crashsafe.EngineSteps

/- What holds in every reachable state of the system, rebuilds included, and what one step
   can do to the rows of one run. -/
namespace Crashsafe
open Rows Replay Execution

section Positions
variable {d : Deployment} {s t : State} {a : Action} {p q : Nat} {pc : Pc}

@[simp] theorem goto_same : (s.goto p pc).pc p = pc := by simp [State.goto]

theorem goto_other (differs : q ≠ p) : (s.goto p pc).pc q = s.pc q := by
  simp [State.goto, Function.update_of_ne differs]

theorem goto_forgets (forgets : Forgets (s.pc p) pc) (q : Nat) :
    Forgets (s.pc q) ((s.goto p pc).pc q) := by
  by_cases here : q = p
  · subst here
    rw [goto_same]
    exact forgets
  · rw [goto_other here]
    exact forgets_refl _

/-- A process holds a claim after a step only if it held it before or was just granted it. -/
theorem claim_effect (effect : Effect d s a t) {claim : ClaimedStep}
    (held : (t.pc q).claim? = some claim) :
    (s.pc q).claim? = some claim ∨
      (t.issued = s.issued ++ [claim.lease] ∧ ∃ now, Granted s.db (d.workerId q) now t.db claim ∧
        (t.pc q).unrecorded? = some claim ∧ ∀ other, other ≠ q → t.pc other = s.pc other) := by
  cases effect with
  | @quiet a p pc beats forgets same =>
    exact .inl ((goto_forgets forgets q).claim claim held)
  | @granted p choice now db claim' was granted =>
    by_cases here : q = p
    · subst here
      simp only [goto_same, Pc.claim?, Option.some.injEq] at held
      subst held
      exact .inr ⟨rfl, now, granted, by simp [Pc.unrecorded?], fun other differs => goto_other differs⟩
    · exact .inl (by simpa [goto_other here] using held)
  | renewed => exact .inl held
  | @created p _ _ _ _ _ was _ | @recorded p _ _ _ _ _ was _ | @sent p _ _ was
  | @resolved p _ _ _ _ _ _ was _ | @decided p _ _ _ _ _ _ _ was _ | @released p _ _ _ was _
  | @read p _ _ _ _ _ | @rebuilt p _ _ _ _ _ was _ =>
    by_cases here : q = p
    · subst here
      simp_all [Pc.claim?]
    · exact .inl (by simpa [goto_other here] using held)

theorem unrecorded_claim {claim : ClaimedStep} (h : pc.unrecorded? = some claim) :
    pc.claim? = some claim := by
  cases pc <;> simp_all [Pc.unrecorded?, Pc.claim?]

theorem attempt_claim {claim : ClaimedStep} {step : StepRecord} (h : pc.attempt? = some (claim, step)) :
    pc.claim? = some claim := by
  cases pc <;> simp_all [Pc.attempt?, Pc.claim?]

theorem unrecorded_effect (effect : Effect d s a t) {claim : ClaimedStep}
    (held : (t.pc q).unrecorded? = some claim) :
    (s.pc q).unrecorded? = some claim ∨
      (t.issued = s.issued ++ [claim.lease] ∧ ∃ now, Granted s.db (d.workerId q) now t.db claim) := by
  cases effect with
  | @quiet a p pc beats forgets same =>
    exact .inl ((goto_forgets forgets q).unrecorded claim held)
  | @granted p choice now db claim' was granted =>
    by_cases here : q = p
    · subst here
      simp only [goto_same, Pc.unrecorded?, Option.some.injEq] at held
      subst held
      exact .inr ⟨rfl, now, granted⟩
    · exact .inl (by simpa [goto_other here] using held)
  | renewed => exact .inl held
  | @created p _ _ _ _ _ was _ | @recorded p _ _ _ _ _ was _ | @sent p _ _ was
  | @resolved p _ _ _ _ _ _ was _ | @decided p _ _ _ _ _ _ _ was _ | @released p _ _ _ was _
  | @read p _ _ _ _ _ | @rebuilt p _ _ _ _ _ was _ =>
    by_cases here : q = p
    · subst here
      simp_all [Pc.unrecorded?]
    · exact .inl (by simpa [goto_other here] using held)

end Positions

/- The invariant of every reachable state. -/
structure Coherent (s : State) : Prop where
  tidy : ∀ runId, Tidy runId (s.db.view runId)
  claims : ∀ p claim, (s.pc p).claim? = some claim →
    claim.lease ∈ s.issued ∧ claim.step.runId = claim.lease.runId
  beats : ∀ h ∈ s.heartbeats, h.lease ∈ s.issued
  issued : ∀ lease ∈ s.issued, 1 ≤ lease.fenceToken ∧ (s.db.view lease.runId).runs ≠ []
  tokens : ∀ runId, ∀ pair ∈ (s.db.view runId).pairs, 1 ≤ pair.2
  attempts : ∀ p claim step, (s.pc p).attempt? = some (claim, step) → step.runId = claim.lease.runId
  decisions : ∀ p claim step, (s.pc p).attempt? = some (claim, step) → step.id = claim.step.id
  reads : ∀ p runId history rebuilt, (s.pc p).reads? = some (runId, history, rebuilt) →
    reduceWorkflowRunHistory history = .ok rebuilt ∧ history <+: (s.db.view runId).events

def issuedOn (s : State) (runId : String) : List WorkflowRunLease :=
  ofKey (·.runId) runId s.issued

/-- The process behind a transition on a run: its claim's pair is in the run's lease row. -/
inductive MovedBy (s t : State) (runId stepId : String) : Action → Write → Prop where
  | recorded (p : Nat) (claim : ClaimedStep) (step : StepRecord) (now leaseNow : Datetime)
      (was : s.pc p = .recording claim now) (after : t.pc p = .attempted claim step)
      (here : claim.lease.runId = runId) (named : claim.step.id = stepId)
      (pair : pairOf claim.lease ∈ (s.db.view runId).pairs) :
      MovedBy s t runId stepId (.commitRecord p leaseNow)
        (.attempt (some claim.lease.ownerId) (some claim.lease.fenceToken))
  | decided (p : Nat) (claim : ClaimedStep) (step : StepRecord) (decision : Decision)
      (now leaseNow : Datetime) (was : s.pc p = .committing claim step decision now)
      (after : t.pc p = .finishing claim) (here : claim.lease.runId = runId) (named : step.id = stepId)
      (pair : pairOf claim.lease ∈ (s.db.view runId).pairs) :
      MovedBy s t runId stepId (.commitDecision p leaseNow) decision.write

/-- What one step may do to the rows of a run and to the log of its leases. -/
inductive ViewChange (s t : State) (a : Action) (runId : String) : Prop where
  | same (view : t.db.view runId = s.db.view runId) (log : issuedOn t runId = issuedOn s runId)
  | created (definition : WorkflowDefinition) (toolKey : Option String) (defaultToolKey : String)
      (now : Datetime) (absent : s.db.view runId = RunView.empty)
      (done : createWorkflowRun s.db definition toolKey defaultToolKey runId now = .ok t.db)
      (log : issuedOn t runId = issuedOn s runId)
      (creator : ∃ p, s.pc p = .creating runId definition toolKey now)
  | moved (row : StepRow) (now : Datetime) (write : Write) (member : row ∈ (s.db.view runId).steps)
      (move : RunMove runId (s.db.view runId) row now write (t.db.view runId))
      (mover : MovedBy s t runId row.id a write) (log : issuedOn t runId = issuedOn s runId)
  | granted (ownerId : String) (now : Datetime) (claim : ClaimedStep)
      (granted : Granted s.db ownerId now t.db claim) (here : claim.lease.runId = runId)
      (log : issuedOn t runId = issuedOn s runId ++ [claim.lease])
  | touched (pairs : (t.db.view runId).pairs = (s.db.view runId).pairs)
      (rest : t.db.view runId = { s.db.view runId with leases := (t.db.view runId).leases })
      (log : issuedOn t runId = issuedOn s runId)
  | rebuilt (p : Nat) (history : List WorkflowRunEvent) (rebuilt : WorkflowRun)
      (created : WorkflowRunCreatedPayload) (acted : a = .commitRebuild p)
      (was : s.pc p = .rewriting runId history rebuilt created)
      (done : rebuildProjection s.db runId rebuilt created = .ok t.db)
      (log : issuedOn t runId = issuedOn s runId)

section Views
variable {d : Deployment} {s t : State} {a : Action} {runId : String}

theorem committed_change {db : Database} {stepId : String} {owner : Option String}
    {token : Option Int} {now leaseNow : Datetime} {write : Write} {row : StepRow} {target : String}
    (committed : Committed s.db target stepId owner token now leaseNow write db row)
    (written : t.db = db) (issued : t.issued = s.issued) (mover : MovedBy s t target stepId a write)
    (runId : String) : ViewChange s t a runId := by
  have log : issuedOn t runId = issuedOn s runId := by rw [issuedOn, issued, issuedOn]
  by_cases here : runId = target
  · subst here
    exact .moved row now write committed.member (written ▸ committed.move)
      (committed.named ▸ mover) log
  · exact .same (written ▸ committed.others runId here) log

theorem touched_change {db : Database} {target owner : String} {token : Int}
    (touched : Touched s.db target owner token db) (written : t.db = db)
    (issued : t.issued = s.issued) (runId : String) : ViewChange s t a runId := by
  subst written
  have log : issuedOn t runId = issuedOn s runId := by rw [issuedOn, issued, issuedOn]
  by_cases here : runId = target
  · subst here
    exact .touched touched.pairs touched.rest log
  · exact .same (touched.others runId here) log

theorem reads_named (coherent : Coherent s) {p : Nat} {history : List WorkflowRunEvent}
    {rebuilt : WorkflowRun} (held : (s.pc p).reads? = some (runId, history, rebuilt)) :
    rebuilt.runId = runId ∧ ∀ step ∈ rebuilt.steps, step.runId = runId := by
  obtain ⟨reduced, before⟩ := coherent.reads p runId history rebuilt held
  have runIds : ∀ e ∈ history, e.runId = runId := fun e member =>
    (coherent.tidy runId).runIds e (before.subset member)
  obtain ⟨_, _, named, _, sound⟩ := read_history runIds reduced
  exact ⟨named, fun step member => (sound.stepRunIds step member).trans named⟩

theorem rebuilt_views (coherent : Coherent s) {p : Nat} {history : List WorkflowRunEvent}
    {rebuilt : WorkflowRun} {created : WorkflowRunCreatedPayload} {db : Database}
    (held : (s.pc p).reads? = some (runId, history, rebuilt))
    (done : rebuildProjection s.db runId rebuilt created = .ok db) :
    db.view runId = { projectionOf rebuilt created (s.db.view runId) with leases := [] } ∧
      ∀ other, other ≠ runId → db.view other = s.db.view other := by
  obtain ⟨named, stepRuns⟩ := reads_named coherent held
  subst named
  exact rebuild_ok stepRuns done

theorem effect_view (coherent : Coherent s) (effect : Effect d s a t) (runId : String) :
    ViewChange s t a runId := by
  cases effect with
  | quiet | sent | resolved | read => exact .same rfl rfl
  | @created p target definition toolKey now db was done =>
    have absent := (coherent.tidy target).absent (create_absent done)
    by_cases here : runId = target
    · subst here
      exact .created definition toolKey (d.defaultToolKey p) now absent done rfl ⟨p, was⟩
    · exact .same ((create_ok absent done).2 runId here) rfl
  | @granted p choice now db claim was granted =>
    by_cases here : runId = claim.lease.runId
    · subst here
      exact .granted (d.workerId p) now claim granted rfl (ofKey_append_same (by simp))
    · exact .same (granted.others runId here) (ofKey_append_other (by simpa using Ne.symm here))
  | @recorded p claim now leaseNow db row was committed =>
    have sameRun := (coherent.claims p claim (by rw [was]; rfl)).2
    have pair := require_lease_ok committed.lease
    rw [(mem_ofKey.mp committed.member).2] at pair
    refine committed_change committed ?_ ?_ ?_ runId
    · rfl
    · rfl
    · exact .recorded p claim _ now leaseNow was goto_same sameRun.symm rfl pair
  | @decided p claim step decision now leaseNow db row was committed =>
    have sameRun := coherent.attempts p claim step (by rw [was]; rfl)
    have pair := require_lease_ok committed.lease
    rw [(mem_ofKey.mp committed.member).2] at pair
    refine committed_change committed ?_ ?_ ?_ runId
    · rfl
    · rfl
    · exact .decided p claim step decision now leaseNow was goto_same sameRun.symm rfl pair
  | released was touched => refine touched_change touched ?_ ?_ runId <;> rfl
  | renewed held same touched => refine touched_change touched ?_ ?_ runId <;> rfl
  | @rebuilt p target history rebuilt created db was done =>
    by_cases here : runId = target
    · subst here
      exact .rebuilt p history rebuilt created rfl was done rfl
    · have held : (s.pc p).reads? = some (target, history, rebuilt) := by rw [was]; rfl
      exact .same ((rebuilt_views coherent held done).2 runId here) rfl

/-- Histories only grow, and runs that exist go on existing. -/
theorem view_grows (coherent : Coherent s) (effect : Effect d s a t) (runId : String) :
    (s.db.view runId).events <+: (t.db.view runId).events ∧
      ((s.db.view runId).runs ≠ [] → (t.db.view runId).runs ≠ []) := by
  cases effect_view coherent effect runId with
  | same view =>
    rw [view]
    exact ⟨List.prefix_refl _, id⟩
  | created definition toolKey defaultToolKey now absent done =>
    rw [absent]
    exact ⟨List.nil_prefix, fun present => absurd rfl present⟩
  | moved row now write member move mover =>
    obtain ⟨first, rest, grown⟩ := move_extends_events move
    refine ⟨⟨first :: rest, grown.symm⟩, fun present => ?_⟩
    rcases move_runs move with same | same | same <;> rw [same] <;> simpa using present
  | granted ownerId now claim granted here =>
    rw [granted_view granted runId]
    exact ⟨List.prefix_refl _, id⟩
  | touched pairs rest =>
    rw [rest]
    exact ⟨List.prefix_refl _, id⟩
  | rebuilt p history rebuilt created acted was done =>
    have held : (s.pc p).reads? = some (runId, history, rebuilt) := by rw [was]; rfl
    rw [(rebuilt_views coherent held done).1]
    exact ⟨List.prefix_refl _, fun _ => by simp [projectionOf]⟩

theorem tidy_effect (coherent : Coherent s) (effect : Effect d s a t) (runId : String) :
    Tidy runId (t.db.view runId) := by
  have tidy := coherent.tidy runId
  cases effect_view coherent effect runId with
  | same view => exact view ▸ tidy
  | created definition toolKey defaultToolKey now absent done => exact tidy_created absent done
  | moved row now write member move mover => exact tidy_move tidy member move
  | granted ownerId now claim granted here => exact tidy_granted granted tidy
  | touched pairs rest =>
    have lengths := congrArg List.length pairs
    simp only [RunView.pairs, List.length_map] at lengths
    refine tidy_leases tidy rest (by rw [lengths]; exact tidy.leases) fun none => ?_
    rw [tidy.absent none] at lengths
    exact List.length_eq_zero_iff.mp lengths
  | rebuilt p history rebuilt created acted was done =>
    obtain ⟨reduced, later, grown⟩ := coherent.reads p runId history rebuilt (by rw [was]; rfl)
    exact tidy_rebuilt tidy grown.symm reduced done

end Views

section Reached
variable {d : Deployment} {s t : State} {a : Action} {q : Nat}

/-- The log of leases only grows. -/
theorem issued_grows (effect : Effect d s a t) : ∀ lease ∈ s.issued, lease ∈ t.issued := by
  intro lease member
  cases effect with
  | granted => exact List.mem_append_left _ member
  | _ => exact member

theorem issued_effect (effect : Effect d s a t) {lease : WorkflowRunLease} (member : lease ∈ t.issued) :
    lease ∈ s.issued ∨ ∃ owner now claim, Granted s.db owner now t.db claim ∧ claim.lease = lease := by
  cases effect with
  | granted was granted =>
    rcases List.mem_append.mp member with old | new
    · exact .inl old
    · exact .inr ⟨_, _, _, granted, (List.mem_singleton.mp new).symm⟩
  | _ => exact .inl member

theorem attempt_effect (effect : Effect d s a t) {claim : ClaimedStep} {step : StepRecord}
    (held : (t.pc q).attempt? = some (claim, step)) :
    (s.pc q).attempt? = some (claim, step) ∨
      ∃ now leaseNow row, s.pc q = .recording claim now ∧ t.pc q = .attempted claim step ∧
        Committed s.db claim.step.runId claim.step.id (some claim.lease.ownerId)
          (some claim.lease.fenceToken) now leaseNow
          (.attempt (some claim.lease.ownerId) (some claim.lease.fenceToken)) t.db row ∧
        step = stepFromRow (dependencies (s.db.view claim.step.runId).dependencies)
          (setAttempt (row.attempts + 1) now row) := by
  cases effect with
  | @quiet a p pc beats forgets same => exact .inl ((goto_forgets forgets q).attempt _ held)
  | @recorded p claim' now leaseNow db row was committed =>
    by_cases here : q = p
    · subst here
      simp only [goto_same, Pc.attempt?, Option.some.injEq, Prod.mk.injEq] at held
      obtain ⟨rfl, rfl⟩ := held
      exact .inr ⟨now, leaseNow, row, was, goto_same, committed, rfl⟩
    · exact .inl (by simpa [goto_other here] using held)
  | renewed => exact .inl held
  | @created p _ _ _ _ _ was _ | @granted p _ _ _ _ was _ | @sent p _ _ was
  | @resolved p _ _ _ _ _ _ was _ | @decided p _ _ _ _ _ _ _ was _ | @released p _ _ _ was _
  | @read p _ _ _ _ _ | @rebuilt p _ _ _ _ _ was _ =>
    by_cases here : q = p
    · subst here
      simp_all [Pc.attempt?]
    · exact .inl (by simpa [goto_other here] using held)

theorem reads_effect (effect : Effect d s a t) {runId : String} {history : List WorkflowRunEvent}
    {rebuilt : WorkflowRun} (held : (t.pc q).reads? = some (runId, history, rebuilt)) :
    (s.pc q).reads? = some (runId, history, rebuilt) ∨
      (a = .readHistory q runId ∧ t.db = s.db ∧ listEvents s.db runId = .ok history ∧
        reduceWorkflowRunHistory history = .ok rebuilt) := by
  cases effect with
  | @quiet a p pc beats forgets same => exact .inl ((goto_forgets forgets q).reads _ held)
  | @read p target seen run listed reduced =>
    by_cases here : q = p
    · subst here
      simp only [goto_same, Pc.reads?, Option.some.injEq, Prod.mk.injEq] at held
      obtain ⟨rfl, rfl, rfl⟩ := held
      exact .inr ⟨rfl, rfl, listed, reduced⟩
    · exact .inl (by simpa [goto_other here] using held)
  | renewed => exact .inl held
  | @created p _ _ _ _ _ was _ | @granted p _ _ _ _ was _ | @sent p _ _ was
  | @resolved p _ _ _ _ _ _ was _ | @decided p _ _ _ _ _ _ _ was _ | @released p _ _ _ was _
  | @recorded p _ _ _ _ _ was _ | @rebuilt p _ _ _ _ _ was _ =>
    by_cases here : q = p
    · subst here
      simp_all [Pc.reads?]
    · exact .inl (by simpa [goto_other here] using held)

theorem beats_effect (effect : Effect d s a t) (coherent : Coherent s) :
    ∀ h ∈ t.heartbeats, h.lease ∈ s.issued := by
  intro h member
  have kept : SameBeats s.heartbeats t.heartbeats → h.lease ∈ s.issued := by
    intro same
    obtain ⟨old, oldMember, lease⟩ := same h member
    exact lease ▸ coherent.beats old oldMember
  cases effect with
  | quiet forgets same => exact kept same
  | renewed held same touched => exact kept same
  | @recorded p claim now leaseNow db row was committed =>
    rcases List.mem_append.mp member with old | new
    · exact coherent.beats h old
    · rw [List.mem_singleton.mp new]
      exact (coherent.claims p claim (by rw [was]; rfl)).1
  | _ => exact coherent.beats h member

theorem granted_token {owner : String} {now : Datetime} {db : Database} {claim : ClaimedStep}
    (coherent : Coherent s) (granted : Granted s.db owner now db claim) :
    1 ≤ claim.lease.fenceToken := by
  rw [granted.token]
  cases held : (s.db.view claim.lease.runId).leases with
  | nil => simp
  | cons lease rest =>
    have pair : pairOf lease ∈ (s.db.view claim.lease.runId).pairs := by
      simp [RunView.pairs, held]
    have positive := coherent.tokens claim.lease.runId _ pair
    simp only [pairOf] at positive
    simp only [List.head?_cons, Option.map_some, Option.getD_some]
    omega

theorem granted_pairs {owner : String} {now : Datetime} {db : Database} {claim : ClaimedStep}
    (coherent : Coherent s) (granted : Granted s.db owner now db claim) :
    (db.view claim.lease.runId).pairs = [pairOf claim.lease] := by
  rw [RunView.pairs, granted.lease (coherent.tidy claim.lease.runId).leases]
  rfl

theorem granted_exists {owner : String} {now : Datetime} {db : Database} {claim : ClaimedStep}
    (granted : Granted s.db owner now db claim) : (s.db.view claim.lease.runId).runs ≠ [] := by
  obtain ⟨_, _, run, member, _⟩ := granted.selected
  exact List.ne_nil_of_mem member

theorem granted_run {owner : String} {now : Datetime} {db : Database} {claim : ClaimedStep}
    (granted : Granted s.db owner now db claim) : claim.step.runId = claim.lease.runId := by
  obtain ⟨row, member, _, _, _, same⟩ := granted.selected
  rw [same]
  exact (mem_ofKey.mp member).2

theorem coherent_start : Coherent State.initial := by
  have empty : ∀ runId, State.initial.db.view runId = RunView.empty := fun _ => rfl
  constructor
  · exact fun runId => empty runId ▸ tidy_empty
  · intro p claim held
    cases held
  · simp [State.initial]
  · simp [State.initial]
  · intro runId pair member
    rw [empty runId] at member
    cases member
  · intro p claim step held
    cases held
  · intro p claim step held
    cases held
  · intro p runId history rebuilt held
    cases held

theorem coherent_effect (coherent : Coherent s) (effect : Effect d s a t) : Coherent t := by
  constructor
  case tidy => exact tidy_effect coherent effect
  case claims =>
    intro p claim held
    rcases claim_effect effect held with before | ⟨issued, now, granted, _⟩
    · obtain ⟨member, run⟩ := coherent.claims p claim before
      exact ⟨issued_grows effect _ member, run⟩
    · exact ⟨by rw [issued]; simp, granted_run granted⟩
  case beats => exact fun h member => issued_grows effect _ (beats_effect effect coherent h member)
  case issued =>
    intro lease member
    rcases issued_effect effect member with before | ⟨owner, now, claim, granted, rfl⟩
    · obtain ⟨positive, present⟩ := coherent.issued lease before
      exact ⟨positive, (view_grows coherent effect lease.runId).2 present⟩
    · exact ⟨granted_token coherent granted,
        (view_grows coherent effect claim.lease.runId).2 (granted_exists granted)⟩
  case tokens =>
    intro runId pair member
    cases effect_view coherent effect runId with
    | same view => exact coherent.tokens runId pair (view ▸ member)
    | created definition toolKey defaultToolKey now absent done =>
      rw [(create_ok absent done).1] at member
      cases member
    | moved row now write inside move mover =>
      rw [RunView.pairs, move_leases move] at member
      exact coherent.tokens runId pair member
    | granted ownerId now claim granted here =>
      subst here
      rw [granted_pairs coherent granted, List.mem_singleton] at member
      rw [member]
      exact granted_token coherent granted
    | touched pairs rest => exact coherent.tokens runId pair (pairs ▸ member)
    | rebuilt p history rebuilt created acted was done =>
      have held : (s.pc p).reads? = some (runId, history, rebuilt) := by rw [was]; rfl
      rw [(rebuilt_views coherent held done).1] at member
      cases member
  case attempts =>
    intro p claim step held
    rcases attempt_effect effect held with before | ⟨now, leaseNow, row, was, _, committed, same⟩
    · exact coherent.attempts p claim step before
    · have run := (coherent.claims p claim (by rw [was]; rfl)).2
      rw [same, ← run]
      exact (mem_ofKey.mp committed.member).2
  case decisions =>
    intro p claim step held
    rcases attempt_effect effect held with before | ⟨now, leaseNow, row, was, _, committed, same⟩
    · exact coherent.decisions p claim step before
    · rw [same, ← committed.named]
      rfl
  case reads =>
    intro p runId history rebuilt held
    rcases reads_effect effect held with before | ⟨_, sameDb, listed, reduced⟩
    · obtain ⟨reduced, earlier⟩ := coherent.reads p runId history rebuilt before
      exact ⟨reduced, earlier.trans (view_grows coherent effect runId).1⟩
    · rw [list_events_ok (coherent.tidy runId) listed, sameDb]
      rw [list_events_ok (coherent.tidy runId) listed] at reduced
      exact ⟨reduced, List.prefix_refl _⟩

/-- The unrestricted system, rebuilds included. -/
theorem coherent_reachable {allowed : State → Action → Prop}
    (h : Reachable (step d) allowed State.initial s) : Coherent s :=
  reachable_invariant coherent_start
    (fun _ _ _ _ before _ taken => coherent_effect before (step_effect taken)) h

end Reached

end Crashsafe

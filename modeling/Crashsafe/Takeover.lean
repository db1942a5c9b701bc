import Crashsafe.Fencing

/- Fencing without rebuilds: who can still write after a takeover, and the tokens the history
   records. -/
namespace Crashsafe
open Rows Replay Execution

/-- The lease whose pair the transaction of an action presents. -/
def presents (s : State) : Action → Option WorkflowRunLease
  | .commitRecord p _ | .commitDecision p _ | .commitRelease p => (s.pc p).claim?.map (·.lease)
  | .renewHeartbeat i => s.heartbeats[i]?.map (·.lease)
  | _ => none

/-- A renewal or a release whose UPDATE matches the lease row. -/
def leaseUpdated (d : Deployment) (s : State) : Action → Bool
  | .commitRelease p =>
    match s.pc p with
    | .releasing claim now =>
      (releaseLease s.db claim.step.runId claim.lease.ownerId claim.lease.fenceToken now).2
    | _ => false
  | .renewHeartbeat i =>
    match s.heartbeats[i]? with
    | some ⟨p, lease, some now⟩ =>
      match renewLease s.db lease.runId lease.ownerId lease.fenceToken
          (d.settings p).leaseTtlSeconds now with
      | .ok (_, renewed) => renewed
      | .error _ => false
    | _ => false
  | _ => false

/-- The transaction of an action changes the database, or matches the lease row it updates. -/
def TakesEffect (d : Deployment) (s t : State) (a : Action) : Prop :=
  t.db ≠ s.db ∨ leaseUpdated d s a = true

def attemptToken (event : WorkflowRunEvent) : Option Int :=
  match event.payload with
  | some (.stepAttemptStarted started) => started.fenceToken
  | _ => none

def attemptTokens (events : List WorkflowRunEvent) : List Int := events.filterMap attemptToken

section Presented
variable {d : Deployment} {s t : State} {a : Action} {lease : WorkflowRunLease}

theorem matched_pair {db : Database} {runId ownerId : String} {fenceToken : Int}
    {p : WorkflowRunLease → Bool}
    (owned : ∀ lease, p lease = true → ownsLease runId ownerId fenceToken lease = true)
    (matched : (db.workflowRunLeases.countP p == 1) = true) :
    (ownerId, fenceToken) ∈ (db.view runId).pairs := by
  have some : 0 < db.workflowRunLeases.countP p := by
    rw [beq_iff_eq.mp matched]
    exact Nat.one_pos
  obtain ⟨lease, member, selected⟩ := List.countP_pos_iff.mp some
  have mine := owned lease selected
  simp only [ownsLease, decide_eq_true_eq] at mine
  exact List.mem_map.mpr ⟨lease, mem_ofKey.mpr ⟨member, mine.1⟩, by simp [pairOf, mine]⟩

theorem updated_pair (coherent : Coherent s) (presented : presents s a = some lease)
    (updated : leaseUpdated d s a = true) : pairOf lease ∈ (s.db.view lease.runId).pairs := by
  cases a with
  | commitRelease p =>
    simp only [leaseUpdated] at updated
    split at updated
    · rename_i claim now was
      have held : (s.pc p).claim? = some claim := by rw [was]; rfl
      simp only [presents, held, Option.map_some, Option.some.injEq] at presented
      subst presented
      rw [(coherent.claims p claim held).2] at updated
      exact matched_pair (fun _ owned => owned) updated
    · cases updated
  | renewHeartbeat i =>
    simp only [leaseUpdated] at updated
    split at updated
    · rename_i p lease' now held
      simp only [presents, held, Option.map_some, Option.some.injEq] at presented
      subst presented
      split at updated
      · rename_i db renewed result
        unfold renewLease at result
        split at result
        · cases result
        · cases result
          exact matched_pair (fun _ live => (Bool.and_eq_true_iff.mp live).1) updated
      · cases updated
    · cases updated
  | _ => cases updated

/-- A transition or lease operation that changes the database presents a pair in the lease row. -/
theorem changed_pair (coherent : Coherent s) (effect : Effect d s a t)
    (presented : presents s a = some lease) (changed : t.db ≠ s.db) :
    pairOf lease ∈ (s.db.view lease.runId).pairs := by
  cases effect with
  | quiet | sent | resolved | read => exact absurd rfl changed
  | created | granted | rebuilt => cases presented
  | @recorded p claim now leaseNow db row was committed =>
    have held : (s.pc p).claim? = some claim := by rw [was]; rfl
    simp only [presents, held, Option.map_some, Option.some.injEq] at presented
    subst presented
    have pair := require_lease_ok committed.lease
    rwa [(mem_ofKey.mp committed.member).2, (coherent.claims p claim held).2] at pair
  | @decided p claim step decision now leaseNow db row was committed =>
    have held : (s.pc p).claim? = some claim := by rw [was]; rfl
    simp only [presents, held, Option.map_some, Option.some.injEq] at presented
    subst presented
    have pair := require_lease_ok committed.lease
    rwa [(mem_ofKey.mp committed.member).2, coherent.attempts p claim step (by rw [was]; rfl)] at pair
  | @released p claim now db was touched =>
    have held : (s.pc p).claim? = some claim := by rw [was]; rfl
    simp only [presents, held, Option.map_some, Option.some.injEq] at presented
    subst presented
    rw [← (coherent.claims p claim held).2]
    exact touched.held.resolve_left changed
  | @renewed i h beats db held same touched =>
    simp only [presents, held, Option.map_some, Option.some.injEq] at presented
    subst presented
    exact touched.held.resolve_left changed

theorem effective_pair (coherent : Coherent s) (effect : Effect d s a t)
    (presented : presents s a = some lease) (effective : TakesEffect d s t a) :
    pairOf lease ∈ (s.db.view lease.runId).pairs :=
  effective.elim (changed_pair coherent effect presented) (updated_pair coherent presented)

/-- The token of the latest lease issued on a run is the greatest. -/
theorem latest_greatest {runId : String} (fenced : Fenced s runId) {last lease : WorkflowRunLease}
    (latest : (issuedOn s runId).getLast? = some last) (member : lease ∈ issuedOn s runId) :
    lease.fenceToken ≤ last.fenceToken := by
  obtain ⟨before, shape⟩ := List.getLast?_eq_some_iff.mp latest
  have increasing := fenced.increasing
  rw [shape, List.map_append, List.pairwise_append] at increasing
  rw [shape] at member
  rcases List.mem_append.mp member with old | new
  · exact le_of_lt (increasing.2.2 _ (List.mem_map_of_mem old) _ (by simp))
  · rw [List.mem_singleton.mp new]

theorem current_greatest {runId : String} (fenced : Fenced s runId) {pair : String × Int}
    (held : pair ∈ (s.db.view runId).pairs) :
    ∀ lease ∈ issuedOn s runId, lease.fenceToken ≤ pair.2 := by
  obtain ⟨last, latest, same⟩ := Option.map_eq_some_iff.mp (fenced.current pair held)
  intro lease member
  rw [← same]
  exact latest_greatest fenced latest member

end Presented

section Tokens
variable {d : Deployment} {s t : State} {a : Action}

theorem attempt_tokens_append (xs ys : List WorkflowRunEvent) :
    attemptTokens (xs ++ ys) = attemptTokens xs ++ attemptTokens ys := List.filterMap_append

theorem move_tokens {runId : String} {v w : RunView} {row : StepRow} {now : Datetime} {write : Write}
    (move : RunMove runId v row now write w) (other : ∀ o f, write ≠ .attempt o f) :
    attemptTokens w.events = attemptTokens v.events := by
  cases move with
  | attempted o f => exact absurd rfl (other o f)
  | retried error nextAttemptAt active => exact (attempt_tokens_append _ _).trans (List.append_nil _)
  | failed error active =>
    change attemptTokens (v.events ++ [_] ++ [_]) = _
    rw [attempt_tokens_append, attempt_tokens_append]
    simp [attemptTokens, attemptToken, eventOf]
  | completed output active w written more =>
    subst written
    exact (attempt_tokens_append _ _).trans (List.append_nil _)
  | finished output active w written all =>
    subst written
    change attemptTokens (v.events ++ [_] ++ [_]) = _
    rw [attempt_tokens_append, attempt_tokens_append]
    simp [attemptTokens, attemptToken, eventOf]

theorem attempt_move_tokens {runId : String} {v w : RunView} {row : StepRow} {now : Datetime}
    {owner : Option String} {token : Int}
    (move : RunMove runId v row now (.attempt owner (some token)) w) :
    attemptTokens w.events = attemptTokens v.events ++ [token] := by
  cases move
  exact attempt_tokens_append _ _

/-- A step records the token of a claim that had not recorded one, or none. -/
theorem attempt_tokens_effect (coherent : Coherent s) (effect : Effect d s a t) (runId : String) :
    attemptTokens (t.db.view runId).events = attemptTokens (s.db.view runId).events ∨
      ∃ p claim, (s.pc p).unrecorded? = some claim ∧ (t.pc p).unrecorded? = none ∧
        claim.lease.runId = runId ∧ pairOf claim.lease ∈ (s.db.view runId).pairs ∧
        attemptTokens (t.db.view runId).events =
          attemptTokens (s.db.view runId).events ++ [claim.lease.fenceToken] := by
  cases effect_view coherent effect runId with
  | same view => exact .inl (congrArg (attemptTokens ·.events) view)
  | created definition toolKey defaultToolKey now absent done =>
    refine .inl ?_
    rw [(create_ok absent done).1, absent]
    rfl
  | granted owner now claim granted =>
    exact .inl (congrArg (attemptTokens ·.events) (granted_view granted runId))
  | touched pairs rest => exact .inl (congrArg (attemptTokens ·.events) rest)
  | rebuilt p history rebuilt created acted was done =>
    have held : (s.pc p).reads? = some (runId, history, rebuilt) := by rw [was]; rfl
    exact .inl (congrArg (attemptTokens ·.events) (rebuilt_views coherent held done).1)
  | moved row now write member move mover =>
    cases mover with
    | recorded p claim step now' leaseNow was after here named pair =>
      exact .inr ⟨p, claim, by rw [was]; rfl, by rw [after]; rfl, here, pair,
        attempt_move_tokens move⟩
    | decided p claim step decision =>
      exact .inl (move_tokens move (by cases decision <;> simp [Decision.write]))

end Tokens

/- What the lease protocol keeps when no projection is rebuilt. -/
structure Guarded (s : State) : Prop where
  coherent : Coherent s
  unread : ∀ p, (s.pc p).reads? = none
  fenced : ∀ runId, Fenced s runId
  unique : ∀ p q a b, (s.pc p).claim? = some a → (s.pc q).claim? = some b →
    a.lease.runId = b.lease.runId → a.lease.fenceToken = b.lease.fenceToken → p = q
  tokens : ∀ runId, ∀ token ∈ attemptTokens (s.db.view runId).events,
    ∃ lease ∈ issuedOn s runId, lease.fenceToken = token
  fresh : ∀ p claim, (s.pc p).unrecorded? = some claim →
    claim.lease.fenceToken ∉ attemptTokens (s.db.view claim.lease.runId).events
  ordered : ∀ runId, (attemptTokens (s.db.view runId).events).Pairwise (· < ·)

section Kept
variable {d : Deployment} {s t : State} {a : Action}

theorem issued_on_mem {lease : WorkflowRunLease} :
    lease ∈ issuedOn s lease.runId ↔ lease ∈ s.issued := by
  simp [issuedOn]

theorem granted_above (guarded : Guarded s) {owner : String} {now : Datetime} {db : Database}
    {claim : ClaimedStep} (granted : Granted s.db owner now db claim) :
    ∀ lease ∈ issuedOn s claim.lease.runId, lease.fenceToken < claim.lease.fenceToken := by
  obtain ⟨_, _, run, member, eligible, _⟩ := granted.selected
  have below := (guarded.fenced claim.lease.runId).next ⟨run, member, eligible.2.1⟩
  rw [next_fence_token_view, ← granted.token] at below
  exact below

theorem unread_effect (guarded : Guarded s) (effect : Effect d s a t)
    (may : noRebuild s a) (p : Nat) : (t.pc p).reads? = none := by
  cases held : (t.pc p).reads? with
  | none => rfl
  | some read =>
    obtain ⟨runId, history, rebuilt⟩ := read
    rcases reads_effect effect held with before | ⟨acted, _⟩
    · rw [guarded.unread p] at before
      cases before
    · exact absurd acted (may p runId)

theorem unread_careful (unread : ∀ p, (s.pc p).reads? = none) : RebuildsUnclaimed s a := by
  intro p runId history rebuilt created db _ was
  have held := unread p
  rw [was] at held
  cases held

theorem unique_effect (guarded : Guarded s) (effect : Effect d s a t) (p q : Nat) (x y : ClaimedStep)
    (holds : (t.pc p).claim? = some x) (also : (t.pc q).claim? = some y)
    (sameRun : x.lease.runId = y.lease.runId) (sameToken : x.lease.fenceToken = y.lease.fenceToken) :
    p = q := by
  rcases claim_effect effect holds with before | ⟨_, now, granted, _, others⟩
  · rcases claim_effect effect also with before' | ⟨_, now, granted, _, others⟩
    · exact guarded.unique p q x y before before' sameRun sameToken
    · have old := issued_on_mem.mpr (guarded.coherent.claims p x before).1
      rw [sameRun] at old
      have := granted_above guarded granted x.lease old
      omega
  · by_contra differs
    have before' : (s.pc q).claim? = some y := by rw [← others q (Ne.symm differs)]; exact also
    have old := issued_on_mem.mpr (guarded.coherent.claims q y before').1
    rw [← sameRun] at old
    have := granted_above guarded granted y.lease old
    omega

/-- A process that keeps its lease finds in its run what it left there, or its own write. -/
inductive HeldChange (s t : State) (p : Nat) (claim : ClaimedStep) : Prop where
  | kept (rest : t.db.view claim.lease.runId =
      { s.db.view claim.lease.runId with leases := (t.db.view claim.lease.runId).leases })
  | recorded (row : StepRow) (step : StepRecord) (now now' : Datetime) (owner : Option String)
      (token : Option Int) (was : s.pc p = .recording claim now') (after : t.pc p = .attempted claim step)
      (member : row ∈ (s.db.view claim.lease.runId).steps) (named : claim.step.id = row.id)
      (move : RunMove claim.lease.runId (s.db.view claim.lease.runId) row now (.attempt owner token)
        (t.db.view claim.lease.runId))
  | decided (row : StepRow) (step : StepRecord) (decision : Decision) (now now' : Datetime)
      (was : s.pc p = .committing claim step decision now') (after : t.pc p = .finishing claim)
      (member : row ∈ (s.db.view claim.lease.runId).steps) (named : step.id = row.id)
      (move : RunMove claim.lease.runId (s.db.view claim.lease.runId) row now decision.write
        (t.db.view claim.lease.runId))

theorem held_change (guarded : Guarded s) (effect : Effect d s a t) {p : Nat} {claim : ClaimedStep}
    (holds : (s.pc p).claim? = some claim)
    (pair : pairOf claim.lease ∈ (t.db.view claim.lease.runId).pairs) :
    pairOf claim.lease ∈ (s.db.view claim.lease.runId).pairs ∧ HeldChange s t p claim := by
  have issued := (guarded.coherent.claims p claim holds).1
  cases effect_view guarded.coherent effect claim.lease.runId with
  | same view =>
    refine ⟨view ▸ pair, .kept ?_⟩
    rw [view]
  | created definition toolKey defaultToolKey now absent =>
    exact absurd (by rw [absent]; rfl) (guarded.coherent.issued _ issued).2
  | moved row now write inside move mover =>
    rw [RunView.pairs, move_leases move] at pair
    have current := (guarded.fenced claim.lease.runId).current
    have holder : ∀ q other, (s.pc q).claim? = some other → other.lease.runId = claim.lease.runId →
        pairOf other.lease ∈ (s.db.view claim.lease.runId).pairs → q = p := by
      intro q other otherHolds here otherPair
      have samePair : pairOf other.lease = pairOf claim.lease :=
        Option.some.inj ((current _ otherPair).symm.trans (current _ pair))
      exact guarded.unique q p other claim otherHolds holds here (congrArg Prod.snd samePair)
    refine ⟨pair, ?_⟩
    cases mover with
    | recorded q other step now' leaseNow was after here named otherPair =>
      obtain rfl := holder q other (by rw [was]; rfl) here otherPair
      obtain rfl : other = claim := by rw [was] at holds; exact Option.some.inj holds
      exact .recorded row step now now' _ _ was after inside named move
    | decided q other step decision now' leaseNow was after here named otherPair =>
      obtain rfl := holder q other (by rw [was]; rfl) here otherPair
      obtain rfl : other = claim := by rw [was] at holds; exact Option.some.inj holds
      exact .decided row step decision now now' was after inside named move
  | granted owner now claim' granted here =>
    -- The new pair is above every pair handed out before.
    have pairs := granted_pairs guarded.coherent granted
    rw [← here, pairs, List.mem_singleton] at pair
    have above := granted_above guarded granted claim.lease (here ▸ issued_on_mem.mpr issued)
    have sameToken : claim.lease.fenceToken = claim'.lease.fenceToken := congrArg Prod.snd pair
    omega
  | touched pairs rest => exact ⟨pairs ▸ pair, .kept rest⟩
  | rebuilt q history rebuilt created acted was =>
    have unread := guarded.unread q
    rw [was] at unread
    cases unread

theorem issued_on_grows (effect : Effect d s a t) {runId : String} {lease : WorkflowRunLease}
    (member : lease ∈ issuedOn s runId) : lease ∈ issuedOn t runId := by
  obtain ⟨old, same⟩ := mem_ofKey.mp member
  exact mem_ofKey.mpr ⟨issued_grows effect lease old, same⟩

theorem tokens_effect (guarded : Guarded s) (effect : Effect d s a t) (runId : String) (token : Int)
    (member : token ∈ attemptTokens (t.db.view runId).events) :
    ∃ lease ∈ issuedOn t runId, lease.fenceToken = token := by
  have kept : token ∈ attemptTokens (s.db.view runId).events →
      ∃ lease ∈ issuedOn t runId, lease.fenceToken = token := by
    intro old
    obtain ⟨lease, issued, same⟩ := guarded.tokens runId token old
    exact ⟨lease, issued_on_grows effect issued, same⟩
  rcases attempt_tokens_effect guarded.coherent effect runId with
    same | ⟨p, claim, unrecorded, _, here, _, grown⟩
  · exact kept (same ▸ member)
  · rw [grown] at member
    rcases List.mem_append.mp member with old | new
    · exact kept old
    · have issued := (guarded.coherent.claims p claim (unrecorded_claim unrecorded)).1
      refine ⟨claim.lease, ?_, (List.mem_singleton.mp new).symm⟩
      exact here ▸ issued_on_mem.mpr (issued_grows effect _ issued)

theorem fresh_effect (guarded : Guarded s) (effect : Effect d s a t) (p : Nat) (claim : ClaimedStep)
    (unrecorded : (t.pc p).unrecorded? = some claim) :
    claim.lease.fenceToken ∉ attemptTokens (t.db.view claim.lease.runId).events := by
  intro member
  have before : (s.pc p).unrecorded? = some claim →
      claim.lease.fenceToken ∈ attemptTokens (s.db.view claim.lease.runId).events → False :=
    fun held old => guarded.fresh p claim held old
  rcases attempt_tokens_effect guarded.coherent effect claim.lease.runId with
    same | ⟨q, claim', unrecorded', cleared, here, _, grown⟩
  · rw [same] at member
    rcases unrecorded_effect effect unrecorded with held | ⟨_, now, granted⟩
    · exact before held member
    · obtain ⟨lease, issued, sameToken⟩ := guarded.tokens _ _ member
      have := granted_above guarded granted lease issued
      omega
  · rw [grown] at member
    rcases unrecorded_effect effect unrecorded with held | ⟨issued, now, granted⟩
    · rcases List.mem_append.mp member with old | new
      · exact before held old
      · have self : p = q := guarded.unique p q claim claim' (unrecorded_claim held)
          (unrecorded_claim unrecorded') here.symm (List.mem_singleton.mp new)
        rw [self, cleared] at unrecorded
        cases unrecorded
    · have issued := (guarded.coherent.claims q claim' (unrecorded_claim unrecorded')).1
      have above := granted_above guarded granted
      rcases List.mem_append.mp member with old | new
      · obtain ⟨lease, issued, sameToken⟩ := guarded.tokens _ _ old
        have := above lease issued
        omega
      · have := above claim'.lease (here ▸ issued_on_mem.mpr issued)
        rw [List.mem_singleton.mp new] at this
        omega

theorem ordered_effect (guarded : Guarded s) (effect : Effect d s a t) (runId : String) :
    (attemptTokens (t.db.view runId).events).Pairwise (· < ·) := by
  rcases attempt_tokens_effect guarded.coherent effect runId with
    same | ⟨p, claim, unrecorded, _, here, held, grown⟩
  · rw [same]
    exact guarded.ordered runId
  · rw [grown, List.pairwise_append]
    refine ⟨guarded.ordered runId, by simp, fun token old _ new => ?_⟩
    rw [List.mem_singleton.mp new]
    -- The claim holds the latest token issued, and has not recorded it yet.
    obtain ⟨lease, issued, sameToken⟩ := guarded.tokens runId token old
    have atMost := current_greatest (guarded.fenced runId) held lease issued
    have differs : token ≠ claim.lease.fenceToken := by
      rintro rfl
      exact guarded.fresh p claim unrecorded (here ▸ old)
    simp only [pairOf] at atMost
    omega

theorem guarded_start : Guarded State.initial := by
  refine ⟨coherent_start, fun _ => rfl, fenced_start, ?_, ?_, ?_, fun _ => List.Pairwise.nil⟩
  · intro p q x y holds
    cases holds
  · intro runId token member
    cases member
  · intro p claim unrecorded
    cases unrecorded

theorem guarded_reachable (reached : Reachable (step d) noRebuild State.initial s) : Guarded s := by
  refine reachable_invariant guarded_start ?_ reached
  intro s a t _ guarded may taken
  have effect := step_effect taken
  exact ⟨coherent_effect guarded.coherent effect, unread_effect guarded effect may,
    fenced_effect guarded.coherent guarded.fenced effect (unread_careful guarded.unread),
    unique_effect guarded effect, tokens_effect guarded effect, fresh_effect guarded effect,
    ordered_effect guarded effect⟩

end Kept

/-- Only the latest claim on a run can write to it, and history shows the claims in order. -/
structure FencingSound (d : Deployment) (s : State) : Prop where
  increasing : ∀ runId, ((issuedOn s runId).map (·.fenceToken)).Pairwise (· < ·)
  latest : ∀ a t lease, step d s a = some t → presents s a = some lease → TakesEffect d s t a →
    (issuedOn s lease.runId).getLast?.map pairOf = some (pairOf lease)
  takeover : ∀ a t lease, step d s a = some t → presents s a = some lease →
    ∀ later ∈ issuedOn s lease.runId, lease.fenceToken < later.fenceToken → t.db = s.db
  recorded : ∀ runId, ∀ e ∈ s.db.eventsOf runId, ∀ f ∈ s.db.eventsOf runId,
    e.sequence < f.sequence → ∀ x y, attemptToken e = some x → attemptToken f = some y → x < y

theorem tokens_follow_sequence {events : List WorkflowRunEvent}
    (sequences : events.map (·.sequence) = numbering events.length)
    (ordered : (attemptTokens events).Pairwise (· < ·)) {e f : WorkflowRunEvent} (he : e ∈ events)
    (hf : f ∈ events) (before : e.sequence < f.sequence) {x y : Int} (hx : attemptToken e = some x)
    (hy : attemptToken f = some y) : x < y := by
  have rising : events.Pairwise fun a b => a.sequence < b.sequence := by
    have sorted := numbering_sorted events.length
    rw [← sequences] at sorted
    exact List.pairwise_map.mp sorted
  have both := rising.and (List.pairwise_filterMap.mp ordered)
  obtain ⟨i, hi, rfl⟩ := List.getElem_of_mem he
  obtain ⟨j, hj, rfl⟩ := List.getElem_of_mem hf
  rcases lt_trichotomy i j with less | same | more
  · exact (List.pairwise_iff_getElem.mp both i j hi hj less).2 x hx y hy
  · subst same
    exact absurd before (lt_irrefl _)
  · have := (List.pairwise_iff_getElem.mp both j i hj hi more).1
    omega

theorem fencing_sound {d : Deployment} {s : State}
    (reached : Reachable (step d) noRebuild State.initial s) : FencingSound d s := by
  have guarded := guarded_reachable reached
  have latest : ∀ a t lease, step d s a = some t → presents s a = some lease →
      TakesEffect d s t a → (issuedOn s lease.runId).getLast?.map pairOf = some (pairOf lease) := by
    intro a t lease taken presented effective
    exact (guarded.fenced lease.runId).current _
      (effective_pair guarded.coherent (step_effect taken) presented effective)
  refine ⟨fun runId => (guarded.fenced runId).increasing, latest, ?_, ?_⟩
  · intro a t lease taken presented later issued after
    by_contra changed
    have greatest := current_greatest (guarded.fenced lease.runId)
      (effective_pair guarded.coherent (step_effect taken) presented (.inl changed)) later issued
    simp only [pairOf] at greatest
    omega
  · intro runId e he f hf before x y hx hy
    exact tokens_follow_sequence (guarded.coherent.tidy runId).sequences (guarded.ordered runId)
      he hf before hx hy

/- The lease of process 0 runs out while it waits for the tool, and process 1 takes over. -/
def takenOver : List Action :=
  [.beginCreate 0 "a1" onboarding none 1, .commitCreate 0, .beginClaim 0 2, .commitClaim 0 0,
    .beginRecord 0 3, .commitRecord 0 4, .send 0, .beginClaim 1 40000000, .commitClaim 1 0,
    .beginRecord 1 40000001, .commitRecord 1 40000002]

theorem taken_over_fencing_sound :
    ∃ s, run (step sharedWorker) State.initial takenOver = some s ∧
      attemptTokens (s.db.eventsOf "a1") = [1, 2] ∧ FencingSound sharedWorker s := by
  have tokens : (run (step sharedWorker) State.initial takenOver).map
      (fun s => attemptTokens (s.db.eventsOf "a1")) = some [1, 2] := by decide +kernel
  obtain ⟨s, ran, tokens⟩ := Option.map_eq_some_iff.mp tokens
  refine ⟨s, ran, tokens, fencing_sound (reachable_run takenOver ?_ .start ran)⟩
  simp [takenOver, noRebuild]

end Crashsafe

import Crashsafe.Punctuality

/- A lease after its release. `renew_lease` and `release_lease` read the clock before they get the
   write lock, so a renewal may compare the expiry that the release stored with a reading taken
   before the release's own. -/
namespace Crashsafe
open Rows Replay Execution

/-- A heartbeat that renews the lease of this run, owner and token. -/
def Renews (h : Heartbeat) (lease : WorkflowRunLease) : Prop :=
  h.lease.runId = lease.runId ∧ pairOf h.lease = pairOf lease

/-- A renewal of the lease is waiting with a reading from before `now`, and with an expiry to
    write. -/
def StaleRenewal (d : Deployment) (s : State) (lease : WorkflowRunLease) (now : Datetime) : Prop :=
  pairOf lease ∈ (s.db.view lease.runId).pairs ∧
    ∃ h ∈ s.heartbeats, Renews h lease ∧ ∃ r, h.reading = some r ∧ r < now ∧
      (r.plusSeconds (d.settings h.process).leaseTtlSeconds).isSome

/-- From here on no renewal of the lease matches its row, and no claim from `now` on waits for it. -/
def StaysReleased (d : Deployment) (released : Clocked) (lease : WorkflowRunLease) (now : Datetime) :
    Prop :=
  ∀ c, Reachable (clockedStep d) timely released c →
    (∀ i h, c.state.heartbeats[i]? = some h → Renews h lease →
      leaseUpdated d c.state (.renewHeartbeat i) = false) ∧
    ∀ current, now ≤ current → pairOf lease ∈ (c.state.db.view lease.runId).pairs →
      leaseAllows c.state.db current lease.runId = true

section Rows

theorem only_lease {leases : List WorkflowRunLease} {stored : WorkflowRunLease}
    (single : leases.length ≤ 1) (member : stored ∈ leases) : leases = [stored] := by
  match leases, member with
  | [only], member => rw [List.mem_singleton.mp member]
  | _ :: _ :: _, _ => simp at single

variable {db : Database} {lease stored : WorkflowRunLease} {now : Datetime}

theorem owns_pair {runId : String} (here : stored.runId = runId) :
    ownsLease runId lease.ownerId lease.fenceToken stored = true ↔ pairOf stored = pairOf lease := by
  simp [ownsLease, pairOf, here]

/-- A released row has the release's reading as its expiry. -/
theorem release_rows {runId : String}
    (member : stored ∈ ((releaseLease db runId lease.ownerId lease.fenceToken now).1.view runId).leases) :
    pairOf stored = pairOf lease ∧ stored.leaseExpiresAt = now ∨
      pairOf stored ≠ pairOf lease ∧ stored ∈ (db.view runId).leases := by
  obtain ⟨inside, here⟩ := mem_ofKey.mp member
  obtain ⟨old, present, same⟩ := mem_updateWhere.mp inside
  split at same
  · rename_i owned
    subst same
    exact .inl ⟨(owns_pair here).mp owned, rfl⟩
  · rename_i other
    subst same
    exact .inr ⟨fun pair => other ((owns_pair here).mpr pair), mem_ofKey.mpr ⟨present, here⟩⟩

/-- A row after a renewal is as before or was live at the renewal's reading. -/
theorem renew_rows {runId target : String} {leaseTtl : PyFloat} {db' : Database} {renewed : Bool}
    (done : renewLease db target lease.ownerId lease.fenceToken leaseTtl now = .ok (db', renewed))
    (member : stored ∈ (db'.view runId).leases) :
    stored ∈ (db.view runId).leases ∨
      target = runId ∧ pairOf stored = pairOf lease ∧ (now.plusSeconds leaseTtl).isSome ∧
        ∃ old ∈ (db.view runId).leases, pairOf old = pairOf lease ∧ now < old.leaseExpiresAt := by
  unfold renewLease at done
  split at done
  · cases done
  rename_i expires later
  cases done
  obtain ⟨inside, here⟩ := mem_ofKey.mp member
  obtain ⟨old, present, same⟩ := mem_updateWhere.mp inside
  split at same
  · rename_i live
    simp only [Bool.and_eq_true, decide_eq_true_eq] at live
    obtain ⟨owned, fresh⟩ := live
    subst same
    have there : old.runId = runId := here
    have target' : old.runId = target := by
      simp only [ownsLease, decide_eq_true_eq] at owned
      exact owned.1
    have pair := (owns_pair target').mp owned
    exact .inr ⟨target'.symm.trans there, pair, by simp [later],
      old, mem_ofKey.mpr ⟨present, there⟩, pair, fresh⟩
  · subst same
    exact .inl (mem_ofKey.mpr ⟨present, here⟩)

/-- A renewal matches the one row of its run while the row is live. -/
theorem renewal_matches {leaseTtl : PyFloat} (rows : (db.view lease.runId).leases = [stored])
    (pair : pairOf stored = pairOf lease) (fits : (now.plusSeconds leaseTtl).isSome)
    (live : now < stored.leaseExpiresAt) :
    ∃ db', renewLease db lease.runId lease.ownerId lease.fenceToken leaseTtl now = .ok (db', true) := by
  obtain ⟨expires, later⟩ := Option.isSome_iff_exists.mp fits
  have here : stored.runId = lease.runId := by
    have member : stored ∈ (db.view lease.runId).leases := by simp [rows]
    exact (mem_ofKey.mp member).2
  have owned := (owns_pair here).mpr pair
  have count : db.workflowRunLeases.countP (fun l =>
      ownsLease lease.runId lease.ownerId lease.fenceToken l && decide (now < l.leaseExpiresAt)) =
      (db.view lease.runId).leases.countP fun l =>
        ownsLease lease.runId lease.ownerId lease.fenceToken l && decide (now < l.leaseExpiresAt) := by
    simp only [Database.view, Database.leasesOf, ofKey, List.countP_filter]
    apply List.countP_congr
    intro l _
    simp only [ownsLease, Bool.and_eq_true, decide_eq_true_eq, iff_self_and]
    exact fun owns => owns.1.1
  simp only [renewLease, later, count, rows, List.countP_singleton, owned, live, decide_true,
    Bool.and_self, ↓reduceIte, BEq.rfl]
  exact ⟨_, rfl⟩

end Rows

/-- Where a lease row of a run comes from. -/
inductive LeaseAfter (d : Deployment) (s t : State) (runId : String) (stored : WorkflowRunLease) :
    Action → Prop where
  | kept {a : Action} (old : stored ∈ (s.db.view runId).leases) : LeaseAfter d s t runId stored a
  | granted {a : Action} (owner : String) (now : Datetime) (claim : ClaimedStep)
      (granted : Granted s.db owner now t.db claim) (here : claim.lease.runId = runId) :
      LeaseAfter d s t runId stored a
  | released (p : Nat) (claim : ClaimedStep) (now : Datetime) (was : s.pc p = .releasing claim now)
      (here : claim.lease.runId = runId) (pair : pairOf stored = pairOf claim.lease) :
      LeaseAfter d s t runId stored (.commitRelease p)
  | renewed (i : Nat) (h : Heartbeat) (r : Datetime) (held : s.heartbeats[i]? = some h)
      (read : h.reading = some r) (here : h.lease.runId = runId) (pair : pairOf stored = pairOf h.lease)
      (fits : (r.plusSeconds (d.settings h.process).leaseTtlSeconds).isSome)
      (live : ∃ old ∈ (s.db.view runId).leases, pairOf old = pairOf h.lease ∧ r < old.leaseExpiresAt) :
      LeaseAfter d s t runId stored (.renewHeartbeat i)

section Steps
variable {d : Deployment} {s t : State} {a : Action} {runId : String} {stored : WorkflowRunLease}

theorem committed_leases {db : Database} {target stepId : String} {owner : Option String}
    {token : Option Int} {now leaseNow : Datetime} {write : Write} {row : StepRow}
    (committed : Committed s.db target stepId owner token now leaseNow write db row) (runId : String) :
    (db.view runId).leases = (s.db.view runId).leases := by
  by_cases here : runId = target
  · rw [here, move_leases committed.move]
  · rw [committed.others runId here]

theorem lease_after (guarded : Guarded s) (taken : step d s a = some t)
    (member : stored ∈ (t.db.view runId).leases) : LeaseAfter d s t runId stored a := by
  cases step_effect taken with
  | quiet | sent | resolved | read => exact .kept member
  | @created p target definition toolKey now db was done =>
    have absent := (guarded.coherent.tidy target).absent (create_absent done)
    have written := create_ok absent done
    by_cases here : runId = target
    · rw [here] at member
      simp only [written.1] at member
      cases member
    · rw [written.2 runId here] at member
      exact .kept member
  | @granted p choice now db claim was granted =>
    by_cases here : runId = claim.lease.runId
    · exact .granted (d.workerId p) now claim granted here.symm
    · rw [granted.others runId here] at member
      exact .kept member
  | recorded was committed | decided was committed =>
    rw [committed_leases committed runId] at member
    exact .kept member
  | @rebuilt p _ _ _ _ _ was =>
    have unread := guarded.unread p
    rw [was] at unread
    cases unread
  | @released p claim now db was touched =>
    have sameRun := (guarded.coherent.claims p claim (by rw [was]; rfl)).2
    simp only [step, was, Option.some.injEq, State.mk.injEq] at taken
    by_cases here : claim.lease.runId = runId
    · rw [← taken.1, sameRun, here] at member
      rcases release_rows member with ⟨pair, _⟩ | ⟨_, old⟩
      · exact .released p claim now was here pair
      · exact .kept old
    · rw [touched.others runId fun same => here (sameRun.symm.trans same.symm)] at member
      exact .kept member
  | @renewed i h beats db held same touched =>
    obtain ⟨p, lease, reading⟩ := h
    cases reading with
    | none => simp [step, held] at taken
    | some r =>
      simp only [step, held] at taken
      split at taken
      · rename_i db' renewed done
        simp only [Option.some.injEq, State.mk.injEq] at taken
        rw [← taken.1] at member
        rcases renew_rows done member with old | ⟨here, pair, fits, live⟩
        · exact .kept old
        · exact .renewed i ⟨p, lease, some r⟩ r held rfl here pair fits live
      · simp only [Option.some.injEq, State.mk.injEq] at taken
        rw [← taken.1] at member
        exact .kept member

/-- A heartbeat's reading was there before or has just been taken. -/
theorem beat_after (taken : step d s a = some t) {h : Heartbeat} (member : h ∈ t.heartbeats)
    {r : Datetime} (read : h.reading = some r) : h ∈ s.heartbeats ∨ a.reading? = some r := by
  cases a with
  | commitClaim p choice =>
    simp only [step] at taken
    split at taken
    · split at taken
      · cases taken
        exact .inl member
      · cases taken
        exact .inl member
      · obtain ⟨_, _, rfl⟩ := Option.map_eq_some_iff.mp taken
        exact .inl member
    · cases taken
  | commitRecord p leaseNow =>
    simp only [step] at taken
    split at taken
    · split at taken
      · cases taken
        refine (List.mem_append.mp member).imp id fun new => ?_
        rw [List.mem_singleton.mp new] at read
        cases read
      · cases taken
        exact .inl member
    · cases taken
  | readHeartbeat i now =>
    obtain ⟨_, _, rfl⟩ := Option.map_eq_some_iff.mp taken
    rcases List.mem_or_eq_of_mem_set member with old | new
    · exact .inl old
    · rw [new] at read
      exact .inr read
  | renewHeartbeat i =>
    have spent : ∀ {lease p}, h ∈ s.heartbeats.set i ⟨p, lease, none⟩ → h ∈ s.heartbeats := by
      intro lease p member
      refine (List.mem_or_eq_of_mem_set member).elim id fun new => ?_
      rw [new] at read
      cases read
    simp only [step] at taken
    repeat' split at taken
    all_goals cases taken
    all_goals exact .inl (spent member)
  | crash p =>
    cases taken
    exact .inl (List.mem_of_mem_filter member)
  | _ =>
    simp only [step] at taken
    repeat' split at taken
    all_goals cases taken
    all_goals exact .inl member

end Steps

/- The invariant after a release that no renewal waits to undo. -/
structure Lapsed (d : Deployment) (lease : WorkflowRunLease) (now : Datetime) (c : Clocked) : Prop where
  past : now ≤ c.clock
  issued : lease ∈ c.state.issued
  unheld : ∀ q claim, (c.state.pc q).claim? = some claim → claim.lease.runId = lease.runId →
    claim.lease.fenceToken ≠ lease.fenceToken
  expired : ∀ stored ∈ (c.state.db.view lease.runId).leases, pairOf stored = pairOf lease →
    stored.leaseExpiresAt ≤ now
  beats : pairOf lease ∈ (c.state.db.view lease.runId).pairs → ∀ h ∈ c.state.heartbeats,
    Renews h lease → ∀ r, h.reading = some r →
    now ≤ r ∨ r.plusSeconds (d.settings h.process).leaseTtlSeconds = none

section Kept
variable {d : Deployment} {lease : WorkflowRunLease} {now : Datetime} {c c' : Clocked}

/-- A pair in the lease row after a step was there before, unless the step grants it. -/
theorem pair_before {s t : State} {a : Action} (guarded : Guarded s) (taken : step d s a = some t)
    (issued : lease ∈ s.issued) (pair : pairOf lease ∈ (t.db.view lease.runId).pairs) :
    pairOf lease ∈ (s.db.view lease.runId).pairs := by
  cases effect_view guarded.coherent (step_effect taken) lease.runId with
  | same view => exact view ▸ pair
  | created definition toolKey defaultToolKey now absent done =>
    rw [(create_ok absent done).1] at pair
    cases pair
  | moved row now write member move =>
    rw [RunView.pairs, move_leases move] at pair
    exact pair
  | granted owner now claim granted here =>
    -- The token granted is above every token issued before.
    have above := granted_above guarded granted lease (here ▸ issued_on_mem.mpr issued)
    rw [← here, granted_pairs guarded.coherent granted, List.mem_singleton] at pair
    have sameToken : lease.fenceToken = claim.lease.fenceToken := congrArg Prod.snd pair
    omega
  | touched pairs rest => exact pairs ▸ pair
  | rebuilt p history rebuilt created acted was =>
    have unread := guarded.unread p
    rw [was] at unread
    cases unread

theorem lapsed_step {a : Action} (guarded : Guarded c.state) (lapsed : Lapsed d lease now c)
    (may : timely c a) (taken : clockedStep d c a = some c') : Lapsed d lease now c' := by
  have forward := clock_forward may taken
  obtain ⟨t, stepped, rfl⟩ := Option.map_eq_some_iff.mp taken
  have effect := step_effect stepped
  refine ⟨lapsed.past.trans forward, issued_grows effect _ lapsed.issued, ?_, ?_, ?_⟩
  · intro q claim held here
    rcases claim_effect effect held with before | ⟨_, now', granted, _⟩
    · exact lapsed.unheld q claim before here
    · exact (granted_above guarded granted lease (here ▸ issued_on_mem.mpr lapsed.issued)).ne'
  · intro stored member pair
    cases lease_after guarded stepped member with
    | kept old => exact lapsed.expired stored old pair
    | granted owner now' claim granted here =>
      have inside : pairOf lease ∈ (t.db.view lease.runId).pairs := pair ▸ List.mem_map_of_mem member
      have above := granted_above guarded granted lease (here ▸ issued_on_mem.mpr lapsed.issued)
      rw [← here, granted_pairs guarded.coherent granted, List.mem_singleton] at inside
      have sameToken : lease.fenceToken = claim.lease.fenceToken := congrArg Prod.snd inside
      omega
    | released p claim now' was here pair' =>
      have sameToken : claim.lease.fenceToken = lease.fenceToken :=
        congrArg Prod.snd (pair'.symm.trans pair)
      exact absurd sameToken (lapsed.unheld p claim (by rw [was]; rfl) here)
    | renewed i h r held read here pair' fits live =>
      obtain ⟨old, member', oldPair, fresh⟩ := live
      have renews : Renews h lease := ⟨here, pair'.symm.trans pair⟩
      have same : pairOf old = pairOf lease := oldPair.trans renews.2
      have present : pairOf lease ∈ (c.state.db.view lease.runId).pairs :=
        same ▸ List.mem_map_of_mem member'
      rcases lapsed.beats present h (List.mem_of_getElem? held) renews r read with late | overflow
      · exact absurd (fresh.trans_le (lapsed.expired old member' same)) (not_lt.mpr late)
      · rw [overflow] at fits
        cases fits
  · intro pair h member renews r read
    rcases beat_after stepped member read with old | acted
    · exact lapsed.beats (pair_before guarded stepped lapsed.issued pair) h old renews r read
    · exact .inl (lapsed.past.trans (may.2 r acted))

theorem lapsed_reachable {clock : Datetime}
    (before : Reachable (clockedStep d) timely ⟨State.initial, clock⟩ c)
    (lapsed : Lapsed d lease now c) (reached : Reachable (clockedStep d) timely c c') :
    Reachable (clockedStep d) timely ⟨State.initial, clock⟩ c' ∧ Lapsed d lease now c' := by
  refine reachable_invariant (P := fun c' => Reachable (clockedStep d) timely ⟨State.initial, clock⟩ c' ∧
    Lapsed d lease now c') ⟨before, lapsed⟩ ?_ reached
  intro c a c' _ ⟨before, lapsed⟩ may taken
  exact ⟨.next before may taken,
    lapsed_step (guarded_reachable (clocked_reachable before)) lapsed may taken⟩

end Kept

section Released
variable {d : Deployment} {lease : WorkflowRunLease} {now clock : Datetime} {c c' : Clocked}

/-- Once lapsed, a lease is neither renewed nor waited for. -/
theorem lapsed_released (guarded : Guarded c.state) (lapsed : Lapsed d lease now c) :
    (∀ i h, c.state.heartbeats[i]? = some h → Renews h lease →
      leaseUpdated d c.state (.renewHeartbeat i) = false) ∧
    ∀ current, now ≤ current → pairOf lease ∈ (c.state.db.view lease.runId).pairs →
      leaseAllows c.state.db current lease.runId = true := by
  constructor
  · intro i h held renews
    by_contra updated
    rw [Bool.not_eq_false] at updated
    obtain ⟨p, beat, reading⟩ := h
    cases reading with
    | none => simp [leaseUpdated, held] at updated
    | some r =>
      simp only [leaseUpdated, held, renewLease] at updated
      cases later : r.plusSeconds (d.settings p).leaseTtlSeconds with
      | none => simp [later] at updated
      | some expires =>
        simp only [later] at updated
        have some : 0 < c.state.db.workflowRunLeases.countP fun stored =>
            ownsLease beat.runId beat.ownerId beat.fenceToken stored && decide (r < stored.leaseExpiresAt) := by
          rw [beq_iff_eq.mp updated]
          exact Nat.one_pos
        obtain ⟨stored, member, live⟩ := List.countP_pos_iff.mp some
        simp only [Bool.and_eq_true, decide_eq_true_eq] at live
        obtain ⟨owned, fresh⟩ := live
        have here : stored.runId = beat.runId := by
          simp only [ownsLease, decide_eq_true_eq] at owned
          exact owned.1
        have pair : pairOf stored = pairOf lease := ((owns_pair here).mp owned).trans renews.2
        have inside : stored ∈ (c.state.db.view lease.runId).leases :=
          mem_ofKey.mpr ⟨member, here.trans renews.1⟩
        have expired := lapsed.expired stored inside pair
        rcases lapsed.beats (pair ▸ List.mem_map_of_mem inside) _ (List.mem_of_getElem? held) renews r rfl
          with late | overflow
        · exact absurd (fresh.trans_le expired) (not_lt.mpr late)
        · simp only [later] at overflow
          cases overflow
  · intro current after pair
    obtain ⟨stored, member, same⟩ := List.mem_map.mp pair
    have expired := lapsed.expired stored member same
    have single := (guarded.coherent.tidy lease.runId).leases
    have head : (c.state.db.leasesOf lease.runId).head? = some stored := by
      rw [show c.state.db.leasesOf lease.runId = [stored] from only_lease single member, List.head?_cons]
    have found : c.state.db.workflowRunLeases.find? (fun l => l.runId = lease.runId) = some stored :=
      (head_ofKey _).symm.trans head
    simp only [leaseAllows, found, decide_eq_true_eq]
    exact expired.trans after

theorem release_step {p : Nat} {claim : ClaimedStep} (was : c.state.pc p = .releasing claim now)
    (guarded : Guarded c.state) (taken : clockedStep d c (.commitRelease p) = some c') :
    c' = ⟨{ c.state.goto p .idle with
      db := (releaseLease c.state.db claim.lease.runId claim.lease.ownerId claim.lease.fenceToken now).1 },
      c.clock⟩ := by
  have sameRun := (guarded.coherent.claims p claim (by rw [was]; rfl)).2
  simp only [clockedStep, step, was, Option.map_some, Option.some.injEq, sameRun] at taken
  exact taken.symm

/-- A release that no waiting renewal can undo leaves the lease lapsed. -/
theorem release_lapses (reached : Reachable (clockedStep d) timely ⟨State.initial, clock⟩ c) {p : Nat}
    {claim : ClaimedStep} (was : c.state.pc p = .releasing claim now)
    (taken : clockedStep d c (.commitRelease p) = some c')
    (fresh : ¬ StaleRenewal d c.state claim.lease now) : Lapsed d claim.lease now c' := by
  have guarded := guarded_reachable (clocked_reachable reached)
  have past := readings_past reached p now (by rw [was]; rfl)
  obtain rfl := release_step was guarded taken
  have touched : Touched c.state.db claim.lease.runId claim.lease.ownerId claim.lease.fenceToken
      (releaseLease c.state.db claim.lease.runId claim.lease.ownerId claim.lease.fenceToken now).1 :=
    release_touches
  refine ⟨past, (guarded.coherent.claims p claim (by rw [was]; rfl)).1, ?_, ?_, ?_⟩
  · intro q other held here sameToken
    by_cases self : q = p
    · rw [self] at held
      simp [State.goto, Pc.claim?] at held
    · have before : (c.state.pc q).claim? = some other := by
        simpa [State.goto, Function.update_of_ne self] using held
      exact self (guarded.unique q p other claim before (by rw [was]; rfl) here sameToken)
  · intro stored member pair
    rcases release_rows member with ⟨_, expiry⟩ | ⟨differs, _⟩
    · exact expiry.le
    · exact absurd pair differs
  · intro pair h member renews r read
    rw [touched.pairs] at pair
    by_contra undone
    rw [not_or, not_le] at undone
    exact fresh ⟨pair, h, member, renews, r, read, undone.1, Option.isSome_iff_ne_none.mpr undone.2⟩

/-- A stale renewal goes through right after the release. -/
theorem stale_renewal_matches (reached : Reachable (clockedStep d) timely ⟨State.initial, clock⟩ c)
    {p : Nat} {claim : ClaimedStep} (was : c.state.pc p = .releasing claim now)
    (taken : clockedStep d c (.commitRelease p) = some c')
    (stale : StaleRenewal d c.state claim.lease now) :
    ∃ i h, c'.state.heartbeats[i]? = some h ∧ Renews h claim.lease ∧
      leaseUpdated d c'.state (.renewHeartbeat i) = true := by
  have guarded := guarded_reachable (clocked_reachable reached)
  obtain ⟨pair, ⟨q, beat, reading⟩, member, renews, r, read, early, fits⟩ := stale
  obtain ⟨i, held⟩ := List.getElem?_of_mem member
  obtain rfl := release_step was guarded taken
  refine ⟨i, ⟨q, beat, reading⟩, held, renews, ?_⟩
  obtain rfl : reading = some r := read
  have touched : Touched c.state.db claim.lease.runId claim.lease.ownerId claim.lease.fenceToken
      (releaseLease c.state.db claim.lease.runId claim.lease.ownerId claim.lease.fenceToken now).1 :=
    release_touches
  -- The run has this one lease row, which now expires at the release's reading.
  have single := (guarded.coherent.tidy claim.lease.runId).leases
  have lengths := congrArg List.length touched.pairs
  simp only [RunView.pairs, List.length_map] at lengths
  rw [← lengths] at single
  rw [← touched.pairs] at pair
  obtain ⟨stored, inside, same⟩ := List.mem_map.mp pair
  have expiry : stored.leaseExpiresAt = now := by
    rcases release_rows inside with ⟨_, expiry⟩ | ⟨differs, _⟩
    · exact expiry
    · exact absurd same differs
  obtain ⟨here, samePair⟩ : beat.runId = claim.lease.runId ∧ pairOf beat = pairOf claim.lease := renews
  have rows := only_lease single inside
  rw [← here] at rows ⊢
  obtain ⟨db', done⟩ := renewal_matches rows (same.trans samePair.symm) fits (expiry ▸ early)
  simp only [leaseUpdated, State.goto, held, done]

end Released

/-- With one clock for all, a released lease stays released exactly when no renewal with an
    earlier reading still waits for the write lock as the release commits. -/
theorem release_sticks_iff {d : Deployment} {clock : Datetime} {c c' : Clocked} {p : Nat}
    {claim : ClaimedStep} {now : Datetime}
    (reached : Reachable (clockedStep d) timely ⟨State.initial, clock⟩ c)
    (was : c.state.pc p = .releasing claim now)
    (taken : clockedStep d c (.commitRelease p) = some c') :
    StaysReleased d c' claim.lease now ↔ ¬ StaleRenewal d c.state claim.lease now := by
  constructor
  · intro released stale
    obtain ⟨i, h, held, renews, updated⟩ := stale_renewal_matches reached was taken stale
    rw [(released c' .start).1 i h held renews] at updated
    cases updated
  · intro fresh later reached'
    have lapsed := release_lapses reached was taken fresh
    have may : timely c (.commitRelease p) := ⟨by simp [noRebuild], by simp [Action.reading?]⟩
    obtain ⟨reached', lapsed⟩ := lapsed_reachable (.next reached may taken) lapsed reached'
    exact lapsed_released (guarded_reachable (clocked_reachable reached')) lapsed

section Example

/- Process 0 releases at 10 while its heartbeat, which has read 5, waits for the write lock. -/
def heldUpHeartbeat : List Action :=
  chargeInFlight ++ [.readHeartbeat 0 5, .resolve 0 (.result ⟨.charge, "charge-1", false⟩) 6,
    .beginDecision 0 7, .commitDecision 0 8, .beginRelease 0 10]

theorem releasing_of_step {s t : State} {p : Nat} {now : Datetime}
    (taken : step sharedWorker s (.commitRelease p) = some t)
    (read : (s.pc p).reading? = some now) : ∃ claim, s.pc p = .releasing claim now := by
  simp only [step] at taken
  split at taken
  · rename_i claim now' was
    rw [was] at read
    obtain rfl := Option.some.inj read
    exact ⟨claim, was⟩
  · cases taken

theorem renewal_revives_lease : ¬ ∀ (d : Deployment) (clock : Datetime) (c c' : Clocked) (p : Nat)
    (claim : ClaimedStep) (now : Datetime),
    Reachable (clockedStep d) timely ⟨State.initial, clock⟩ c → c.state.pc p = .releasing claim now →
    clockedStep d c (.commitRelease p) = some c' → StaysReleased d c' claim.lease now := by
  intro sticks
  have facts : (runWhere (clockedStep sharedWorker) timely ⟨State.initial, 0⟩ heldUpHeartbeat).bind
      (fun c => (clockedStep sharedWorker c (.commitRelease 0)).map fun c' =>
        ((c.state.pc 0).reading?, (c.state.pc 0).claim?.map (·.lease),
          c'.state.heartbeats[0]?.map (·.lease), leaseUpdated sharedWorker c'.state (.renewHeartbeat 0))) =
      some (some 10, some ⟨"a1", "worker", 1, 30000002, 2⟩, some ⟨"a1", "worker", 1, 30000002, 2⟩,
        true) := by
    decide +kernel
  obtain ⟨c, ran, facts⟩ := Option.bind_eq_some_iff.mp facts
  obtain ⟨c', taken, facts⟩ := Option.map_eq_some_iff.mp facts
  simp only [Prod.mk.injEq] at facts
  obtain ⟨read, claimed, beat, updated⟩ := facts
  obtain ⟨t, stepped, rfl⟩ := Option.map_eq_some_iff.mp taken
  obtain ⟨claim, was⟩ := releasing_of_step stepped read
  obtain ⟨h, held, lease⟩ := Option.map_eq_some_iff.mp beat
  have same : claim.lease = ⟨"a1", "worker", 1, 30000002, 2⟩ := by
    rw [was] at claimed
    exact Option.some.inj claimed
  have released := sticks sharedWorker 0 c _ 0 claim 10 (reachable_runWhere heldUpHeartbeat .start ran)
    was taken
  rw [(released _ .start).1 0 h held ⟨by rw [lease, same], by rw [lease, same]⟩] at updated
  cases updated

theorem quiet_release_sticks : ∃ c c' claim,
    runWhere (clockedStep sharedWorker) timely ⟨State.initial, 0⟩ (retriedCharge.take 11) = some c ∧
      c.state.pc 0 = .releasing claim 8 ∧ clockedStep sharedWorker c (.commitRelease 0) = some c' ∧
      StaysReleased sharedWorker c' claim.lease 8 := by
  have facts : (runWhere (clockedStep sharedWorker) timely ⟨State.initial, 0⟩
      (retriedCharge.take 11)).bind (fun c => (clockedStep sharedWorker c (.commitRelease 0)).map
        fun _ => ((c.state.pc 0).reading?, c.state.heartbeats.map (·.reading))) =
      some (some 8, [none]) := by
    decide +kernel
  obtain ⟨c, ran, facts⟩ := Option.bind_eq_some_iff.mp facts
  obtain ⟨c', taken, facts⟩ := Option.map_eq_some_iff.mp facts
  simp only [Prod.mk.injEq] at facts
  obtain ⟨t, stepped, same⟩ := Option.map_eq_some_iff.mp taken
  obtain ⟨claim, was⟩ := releasing_of_step stepped facts.1
  have reached := reachable_runWhere (retriedCharge.take 11) .start ran
  refine ⟨c, c', claim, ran, was, taken, (release_sticks_iff reached was taken).mpr ?_⟩
  rintro ⟨_, h, member, _, r, read, _⟩
  have none : h.reading ∈ c.state.heartbeats.map (·.reading) := List.mem_map_of_mem member
  rw [facts.2, read] at none
  simp at none

end Example

end Crashsafe

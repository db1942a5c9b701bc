import Crashsafe.World

/- One effect for a step, whatever is retried, lost or late. -/
namespace Crashsafe
open Rows Execution

/-- Validating the dump of an accepted request gives the request back. -/
def Revalidates (codec : ToolCodec) : Prop :=
  ∀ q : StepRequest, q.Accepted → codec.modelValidate q.operation q.modelDump = some q.modelDump

def effectsUnder (store : ToolStore) (key : String) : List SideEffect :=
  ofKey (·.operationKey) key store.sideEffects

/-- The ledger agrees with the engine on what has been done. -/
structure ExactlyOnce (w : World) : Prop where
  atMostOnce : ∀ runId stepId,
    (effectsUnder w.tool.store (operationKey runId stepId)).length ≤ 1
  completed : ∀ runId, ∀ row ∈ w.engine.db.stepsOf runId, row.status = .completed →
    ∃ e, effectsUnder w.tool.store (operationKey runId row.id) = [e] ∧ e.operation = row.operation ∧
      e.request = row.request ∧
      ∃ output, row.output = some output ∧ output.get? "reference_id" = some (.str e.id)
  unconflicted : ∀ i, w.tool.reply? i ≠ some conflictReply

section Effects
variable {codec : ToolCodec} {w : World}

theorem effects_at_most_one (sound : ToolSound codec w.tool) (key : String) :
    (effectsUnder w.tool.store key).length ≤ 1 := by
  cases shape : effectsUnder w.tool.store key with
  | nil => simp
  | cons e rest =>
    have inside : e ∈ effectsUnder w.tool.store key := by simp [shape]
    obtain ⟨member, rfl⟩ := mem_ofKey.mp inside
    have one : effectsUnder w.tool.store e.operationKey = [e] := ofKey_unique sound.keys member
    simp [← shape, one]

/-- What a COMPLETED step's output reports is the effect under its key. -/
theorem completed_effect (joined : Joined codec w) (revalidates : Revalidates codec) {runId : String}
    {row : StepRow} (member : row ∈ w.engine.db.stepsOf runId) (completed : row.status = .completed) :
    ∃ e, effectsUnder w.tool.store (operationKey runId row.id) = [e] ∧ e.operation = row.operation ∧
      e.request = row.request ∧
      ∃ output, row.output = some output ∧ output.get? "reference_id" = some (.str e.id) := by
  change row ∈ (w.engine.db.view runId).steps at member
  obtain ⟨output, stored, e, inside, key, result, dumped, _, reference⟩ :=
    joined.completed runId row member completed
  have named := (joined.traced.keys runId row member).1
  obtain ⟨runId', row', member', key', operation, valid, _⟩ := effect_of_row joined inside
  obtain ⟨rfl, rfl⟩ := row_of_key joined.traced member member'
    (named.symm.trans (key.symm.trans key'))
  obtain ⟨q, accepted, sameOperation, sameRequest⟩ :=
    (joined.traced.faithful.guarded.coherent.tidy runId).submitted row member
  have requests : e.request = row.request := by
    rw [sameOperation, sameRequest, revalidates q accepted] at valid
    rw [sameRequest, Option.some.inj valid]
  refine ⟨e, ?_, operation, requests, output, stored, ?_⟩
  · rw [← named, ← key]
    exact ofKey_unique joined.sound.keys inside
  · rw [dumped, modelDump_reference, reference]

end Effects

theorem effects_exactly_once {d : Deployment} {config : ToolConfig} {codec : ToolCodec}
    (revalidates : Revalidates codec) {w : World}
    (reached : Reachable (worldStep d config codec) honest (World.initial config) w) :
    ExactlyOnce w := by
  have joined := joined_reachable reached
  exact ⟨fun _ _ => effects_at_most_one joined.sound _,
    fun _ _ member completed => completed_effect joined revalidates member completed,
    joined.unconflicted⟩

section Example

/- The first charge reaches the tool after its worker has crashed; the second worker's request
   is answered with the same effect. -/
def lateCharge : List WorldAction :=
  [.engine (.beginCreate 0 "a1" onboarding none 1), .engine (.commitCreate 0),
    .engine (.beginClaim 0 2), .engine (.commitClaim 0 0), .engine (.beginRecord 0 3),
    .engine (.commitRecord 0 4), .engine (.send 0), .engine (.crash 0),
    .engine (.beginClaim 1 40000000), .engine (.commitClaim 1 0), .engine (.beginRecord 1 40000001),
    .engine (.commitRecord 1 40000002), .engine (.send 1), .deliver 1, .tool (.find 0),
    .tool (.inject 0 false), .deliver 0, .tool (.find 1), .tool (.inject 1 false),
    .tool (.apply 1 "0123456789abcdef" 40000003), .tool (.apply 0 "fedcba9876543210" 40000004),
    .tool (.answer 0),
    .engine (.resolve 1 (.result ⟨.charge, "charge_0123456789abcdef", true⟩) 40000005),
    .engine (.beginDecision 1 40000006), .engine (.commitDecision 1 40000007)]

def quietTool : ToolConfig := ⟨"1.0", 0, none⟩

theorem late_charge_exactly_once :
    ∃ w, runWhere (worldStep sharedWorker quietTool modelCodec) honest (World.initial quietTool)
        lateCharge = some w ∧
      (w.engine.db.stepsOf "a1").map (·.status) = [.completed, .pending] ∧ ExactlyOnce w := by
  have statuses : (runWhere (worldStep sharedWorker quietTool modelCodec) honest
      (World.initial quietTool) lateCharge).map
        (fun w => (w.engine.db.stepsOf "a1").map (·.status)) = some [.completed, .pending] := by
    decide +kernel
  obtain ⟨w, ran, statuses⟩ := Option.map_eq_some_iff.mp statuses
  exact ⟨w, ran, statuses, effects_exactly_once (fun _ => model_codec_revalidates)
    (reachable_runWhere lateCharge .start ran)⟩

end Example

end Crashsafe

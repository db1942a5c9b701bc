import Crashsafe.Models

/- Submitted definitions: what the API accepts before a run exists. -/
namespace Crashsafe

inductive StepRequest where
  | charge (customerId : String) (amountCents : Int)
  | provision (customerId plan : String)
  | notify (customerId email message : String)
  deriving DecidableEq, Repr

def StepRequest.operation : StepRequest → StepName
  | .charge .. => .charge
  | .provision .. => .provision
  | .notify .. => .notify

def StepRequest.modelDump : StepRequest → Json
  | .charge customerId amountCents =>
    .obj [("amount_cents", .num amountCents), ("customer_id", .str customerId)]
  | .provision customerId plan => .obj [("customer_id", .str customerId), ("plan", .str plan)]
  | .notify customerId email message =>
    .obj [("customer_id", .str customerId), ("email", .str email), ("message", .str message)]

def lengthWithin (low high : Nat) (s : String) : Prop := low ≤ s.length ∧ s.length ≤ high

instance (low high : Nat) (s : String) : Decidable (lengthWithin low high s) :=
  inferInstanceAs (Decidable (_ ∧ _))

def StepRequest.Accepted : StepRequest → Prop
  | .charge customerId amountCents => lengthWithin 1 128 customerId ∧ 0 < amountCents
  | .provision customerId plan => lengthWithin 1 128 customerId ∧ lengthWithin 1 128 plan
  | .notify customerId email message =>
    lengthWithin 1 128 customerId ∧ lengthWithin 3 320 email ∧ lengthWithin 1 1000 message

instance : (r : StepRequest) → Decidable r.Accepted
  | .charge .. | .provision .. | .notify .. => inferInstanceAs (Decidable (_ ∧ _))

structure WorkflowStep where
  id : String
  dependsOn : List String
  request : StepRequest
  deriving DecidableEq, Repr

def idCharacter (c : Char) : Bool :=
  ('A' ≤ c && c ≤ 'Z') || ('a' ≤ c && c ≤ 'z') || ('0' ≤ c && c ≤ '9') || c = '_' || c = '-'

/- `^[A-Za-z0-9_-]{1,64}$` -/
def idMatches (id : String) : Prop := lengthWithin 1 64 id ∧ id.toList.all idCharacter = true

instance (id : String) : Decidable (idMatches id) := inferInstanceAs (Decidable (_ ∧ _))

def WorkflowStep.Accepted (step : WorkflowStep) : Prop :=
  idMatches step.id ∧ step.dependsOn.length ≤ 32 ∧ step.request.Accepted

instance (step : WorkflowStep) : Decidable step.Accepted := inferInstanceAs (Decidable (_ ∧ _ ∧ _))

inductive DefinitionError where
  | duplicateIds
  | duplicateDependencies (stepId : String)
  | selfDependency (stepId : String)
  | unknownDependencies (stepId : String) (missing : List String)
  | cyclic
  deriving DecidableEq, Repr

/-- `sortedRepr` stands for Python's rendering of `sorted(missing)`. -/
def DefinitionError.message (sortedRepr : List String → String) : DefinitionError → String
  | .duplicateIds => "step IDs must be unique"
  | .duplicateDependencies stepId => s!"step {stepId} has duplicate dependencies"
  | .selfDependency stepId => s!"step {stepId} cannot depend on itself"
  | .unknownDependencies stepId missing =>
    s!"step {stepId} has unknown dependencies: {sortedRepr missing}"
  | .cyclic => "workflow dependencies must be acyclic"

def checkStep (known : List String) (step : WorkflowStep) : Except DefinitionError Unit :=
  if ¬ step.dependsOn.Nodup then .error (.duplicateDependencies step.id)
  else if step.id ∈ step.dependsOn then .error (.selfDependency step.id)
  else if step.dependsOn.filter (· ∉ known) ≠ [] then
    .error (.unknownDependencies step.id (step.dependsOn.filter (· ∉ known)))
  else .ok ()

def stepDependsOn (steps : List WorkflowStep) (stepId : String) : List String :=
  match steps.find? fun step => step.id = stepId with
  | some step => step.dependsOn
  | none => []

/- The body of the inner loop: one candidate loses the step just visited. -/
def visitCandidate (current : String) (visited : List String)
    (state : (String → List String) × List String) (candidate : String) :
    (String → List String) × List String :=
  let (dependencies, ready) := state
  if current ∈ dependencies candidate then
    let left := (dependencies candidate).erase current
    let dependencies := Function.update dependencies candidate left
    if left = [] ∧ candidate ∉ visited ∧ candidate ∉ ready then (dependencies, ready ++ [candidate])
    else (dependencies, ready)
  else (dependencies, ready)

/-- `while ready:`. Rounds are bounded by the first argument; `none` is running out of them. -/
def drainReady (ids : List String) :
    Nat → (String → List String) → List String → List String → Option (List String)
  | _, _, [], visited => some visited
  | 0, _, _ :: _, _ => none
  | rounds + 1, dependencies, current :: ready, visited =>
    let visited := visited ++ [current]
    let (dependencies, ready) := ids.foldl (visitCandidate current visited) (dependencies, ready)
    drainReady ids rounds dependencies ready visited

/- A queue holds every id at most once, so one round for each id is enough. -/
def validateGraph (steps : List WorkflowStep) : Except DefinitionError Unit :=
  let ids := steps.map (·.id)
  if ¬ ids.Nodup then .error .duplicateIds
  else
    match steps.forM (checkStep ids) with
    | .error e => .error e
    | .ok () =>
      let dependencies := stepDependsOn steps
      match drainReady ids ids.length dependencies (ids.filter fun i => dependencies i = []) [] with
      | some visited => if visited.length ≠ ids.length then .error .cyclic else .ok ()
      | none => .error .cyclic

structure WorkflowDefinition where
  name : String
  steps : List WorkflowStep
  nameLength : lengthWithin 1 128 name
  stepsLength : 1 ≤ steps.length ∧ steps.length ≤ 32
  stepsAccepted : ∀ step ∈ steps, step.Accepted
  graph : validateGraph steps = .ok ()

end Crashsafe

import Mathlib

/- Executions of a system given by a partial step function. `allowed` restricts the steps
   an execution may take; the unrestricted system allows every one. -/
namespace Execution
variable {State Action : Type*}

inductive Reachable (step : State → Action → Option State) (allowed : State → Action → Prop)
    (init : State) : State → Prop where
  | start : Reachable step allowed init init
  | next {s t : State} {a : Action} (before : Reachable step allowed init s)
      (may : allowed s a) (taken : step s a = some t) : Reachable step allowed init t

def anyStep (_ : State) (_ : Action) : Prop := True

def run (step : State → Action → Option State) : State → List Action → Option State
  | s, [] => some s
  | s, a :: rest => (step s a).bind fun t => run step t rest

/-- A run that stops where a step is not allowed. -/
def runWhere (step : State → Action → Option State) (allowed : State → Action → Prop)
    [∀ s a, Decidable (allowed s a)] : State → List Action → Option State
  | s, [] => some s
  | s, a :: rest =>
    if allowed s a then (step s a).bind fun t => runWhere step allowed t rest else none

section
variable {step : State → Action → Option State} {allowed : State → Action → Prop} {init : State}

theorem reachable_invariant {P : State → Prop} (start : P init)
    (preserved : ∀ s a t, Reachable step allowed init s → P s → allowed s a →
      step s a = some t → P t) {s : State} (h : Reachable step allowed init s) : P s := by
  induction h with
  | start => exact start
  | next before may taken ih => exact preserved _ _ _ before ih may taken

theorem reachable_weaken {allowed' : State → Action → Prop}
    (weaker : ∀ s a, allowed s a → allowed' s a) {s : State}
    (h : Reachable step allowed init s) : Reachable step allowed' init s := by
  induction h with
  | start => exact .start
  | next before may taken ih => exact .next ih (weaker _ _ may) taken

theorem reachable_trans {s t : State} (first : Reachable step allowed init s)
    (later : Reachable step allowed s t) : Reachable step allowed init t := by
  induction later with
  | start => exact first
  | next before may taken ih => exact .next ih may taken

theorem reachable_step {s t : State} {a : Action} (may : allowed s a) (taken : step s a = some t) :
    Reachable step allowed s t :=
  .next .start may taken

theorem reachable_run (actions : List Action) (may : ∀ s, ∀ a ∈ actions, allowed s a) {s t : State}
    (h : Reachable step allowed init s) (ran : run step s actions = some t) :
    Reachable step allowed init t := by
  induction actions generalizing s with
  | nil =>
    cases ran
    exact h
  | cons a rest ih =>
    obtain ⟨u, taken, later⟩ := Option.bind_eq_some_iff.mp ran
    have first : Reachable step allowed init u := .next h (may s a (by simp)) taken
    exact ih (fun s b member => may s b (List.mem_cons_of_mem a member)) first later

theorem reachable_runWhere [∀ s a, Decidable (allowed s a)] (actions : List Action) {s t : State}
    (h : Reachable step allowed init s) (ran : runWhere step allowed s actions = some t) :
    Reachable step allowed init t := by
  induction actions generalizing s with
  | nil =>
    cases ran
    exact h
  | cons a rest ih =>
    simp only [runWhere] at ran
    split at ran
    · rename_i may
      obtain ⟨u, taken, later⟩ := Option.bind_eq_some_iff.mp ran
      exact ih (.next h may taken) later
    · cases ran

/-- The run takes a step that `P` describes. -/
def Takes (step : State → Action → Option State) (allowed : State → Action → Prop)
    [∀ s a, Decidable (allowed s a)] (s : State) (actions : List Action) (t : State)
    (P : State → Action → State → Prop) : Prop :=
  ∃ before a after u v, actions = before ++ a :: after ∧
    runWhere step allowed s before = some u ∧ allowed u a ∧ step u a = some v ∧
    runWhere step allowed v after = some t ∧ P u a v

/-- What holds at the end of a run and not at its start came about in one of its steps. -/
theorem takes_change [∀ s a, Decidable (allowed s a)] {P : State → Prop} (actions : List Action)
    {s t : State} (ran : runWhere step allowed s actions = some t) (first : ¬ P s) (last : P t) :
    Takes step allowed s actions t fun u _ v => ¬ P u ∧ P v := by
  induction actions generalizing s with
  | nil =>
    cases ran
    exact absurd last first
  | cons a rest ih =>
    simp only [runWhere] at ran
    split at ran
    · rename_i may
      obtain ⟨u, taken, later⟩ := Option.bind_eq_some_iff.mp ran
      by_cases changed : P u
      · exact ⟨[], a, rest, s, u, rfl, rfl, may, taken, later, first, changed⟩
      · obtain ⟨before, b, after, v, w, rfl, ran', described⟩ := ih later changed
        refine ⟨a :: before, b, after, v, w, rfl, ?_, described⟩
        simp [runWhere, may, taken, ran']
    · cases ran

theorem takes_imp [∀ s a, Decidable (allowed s a)] {P Q : State → Action → State → Prop}
    {actions : List Action} {s t : State} (takes : Takes step allowed s actions t P)
    (imp : ∀ u a v, Reachable step allowed s u → allowed u a → step u a = some v →
      Reachable step allowed v t → P u a v → Q u a v) : Takes step allowed s actions t Q := by
  obtain ⟨before, a, after, u, v, split, first, may, taken, rest, described⟩ := takes
  exact ⟨before, a, after, u, v, split, first, may, taken, rest, imp u a v
    (reachable_runWhere before .start first) may taken (reachable_runWhere after .start rest) described⟩

/-- What each step takes from a budget bounds how often a run takes a step of this kind. `R` is
    what may be assumed of every state. -/
theorem runWhere_countP [∀ s a, Decidable (allowed s a)] {R : State → Prop} {kind : Action → Bool}
    (budget : State → Nat)
    (kept : ∀ s a t, R s → allowed s a → step s a = some t →
      R t ∧ budget t + (if kind a then 1 else 0) ≤ budget s)
    (actions : List Action) {s t : State} (hR : R s) (ran : runWhere step allowed s actions = some t) :
    budget t + actions.countP kind ≤ budget s := by
  induction actions generalizing s with
  | nil =>
    cases ran
    simp
  | cons a rest ih =>
    simp only [runWhere] at ran
    split at ran
    · rename_i may
      obtain ⟨u, taken, later⟩ := Option.bind_eq_some_iff.mp ran
      obtain ⟨hRu, first⟩ := kept s a u hR may taken
      have tail := ih hRu later
      rw [List.countP_cons]
      omega
    · cases ran

/-- A system whose steps project to steps of another, or to none, only reaches states that
    project to reachable ones. -/
theorem reachable_project {State' Action' : Type*} {step' : State' → Action' → Option State'}
    {allowed' : State' → Action' → Prop} (f : State → State')
    (simulated : ∀ s a t, Reachable step allowed init s → allowed s a → step s a = some t →
      f t = f s ∨ ∃ a', allowed' (f s) a' ∧ step' (f s) a' = some (f t))
    {s : State} (h : Reachable step allowed init s) :
    Reachable step' allowed' (f init) (f s) := by
  induction h with
  | start => exact .start
  | next before may taken ih =>
    rcases simulated _ _ _ before may taken with same | ⟨a', may', taken'⟩
    · rw [same]
      exact ih
    · exact .next ih may' taken'

end

section
variable (step : State → Action → Option State)

/-- Every state of the execution, the first one included, satisfies `P`. -/
def Always (P : State → Prop) : State → List Action → Prop
  | s, [] => P s
  | s, a :: rest => P s ∧ ∀ t, step s a = some t → Always P t rest

/-- Every step of the execution is taken where `Q` allows it. -/
def EachStep (Q : State → Action → Prop) : State → List Action → Prop
  | _, [] => True
  | s, a :: rest => ∀ t, step s a = some t → Q s a ∧ EachStep Q t rest

variable {step}

/-- A condition on single steps that is exactly what keeps `P` is, over a whole execution,
    exactly what keeps `P` throughout. `R` is what may be assumed of every state. -/
theorem always_iff_eachStep {P R : State → Prop} {Q : State → Action → Prop}
    (reached : ∀ s a t, R s → step s a = some t → R t)
    (exact_step : ∀ s a t, R s → P s → step s a = some t → (P t ↔ Q s a))
    (actions : List Action) (s : State) (hR : R s) (hP : P s) :
    Always step P s actions ↔ EachStep step Q s actions := by
  induction actions generalizing s with
  | nil => simp [Always, EachStep, hP]
  | cons a rest ih =>
    simp only [Always, EachStep]
    constructor
    · rintro ⟨_, later⟩ t taken
      have tail := later t taken
      have ht : P t := by
        cases rest with
        | nil => exact tail
        | cons b rest => exact tail.1
      have hRt := reached s a t hR taken
      exact ⟨(exact_step s a t hR hP taken).mp ht, (ih t hRt ht).mp tail⟩
    · intro each
      refine ⟨hP, fun t taken => ?_⟩
      obtain ⟨hQ, tail⟩ := each t taken
      have ht := (exact_step s a t hR hP taken).mpr hQ
      exact (ih t (reached s a t hR taken) ht).mpr tail

theorem eachStep_imp {R : State → Prop} {Q Q' : State → Action → Prop}
    (kept : ∀ s a t, R s → Q s a → step s a = some t → R t ∧ Q' s a)
    (actions : List Action) (s : State) (hR : R s) (each : EachStep step Q s actions) :
    EachStep step Q' s actions := by
  induction actions generalizing s with
  | nil => trivial
  | cons a rest ih =>
    intro t taken
    obtain ⟨hQ, later⟩ := each t taken
    obtain ⟨hRt, hQ'⟩ := kept s a t hR hQ taken
    exact ⟨hQ', ih t hRt later⟩

theorem eachStep_of_all {Q : State → Action → Prop} (actions : List Action)
    (all : ∀ s, ∀ a ∈ actions, Q s a) (s : State) : EachStep step Q s actions := by
  induction actions generalizing s with
  | nil => trivial
  | cons a rest ih =>
    exact fun t _ => ⟨all s a (by simp), ih (fun s b member => all s b (List.mem_cons_of_mem a member)) t⟩

theorem always_last {P : State → Prop} (actions : List Action) {s t : State}
    (h : Always step P s actions) (ran : run step s actions = some t) : P t := by
  induction actions generalizing s with
  | nil =>
    cases ran
    exact h
  | cons a rest ih =>
    obtain ⟨u, taken, later⟩ := Option.bind_eq_some_iff.mp ran
    exact ih (h.2 u taken) later

/-- What is lost for good was never lost in an execution that ends with it. -/
theorem always_of_last {P R : State → Prop} (reached : ∀ s a t, R s → step s a = some t → R t)
    (lasting : ∀ s a t, R s → ¬ P s → step s a = some t → ¬ P t) (actions : List Action) {s t : State}
    (hR : R s) (ran : run step s actions = some t) (last : P t) : Always step P s actions := by
  induction actions generalizing s with
  | nil =>
    cases ran
    exact last
  | cons a rest ih =>
    obtain ⟨u, taken, later⟩ := Option.bind_eq_some_iff.mp ran
    have tail := ih (reached s a u hR taken) later
    refine ⟨?_, fun u' taken' => ?_⟩
    · by_contra lost
      have head : P u := by
        cases rest with
        | nil => exact tail
        | cons b rest => exact tail.1
      exact lasting s a u hR lost taken head
    · obtain rfl := Option.some.inj (taken.symm.trans taken')
      exact tail

end

end Execution

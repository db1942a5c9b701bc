import Crashsafe.Library.Execution

/- One system seen as another: what a step does to the view is one move of the abstract system,
   or nothing. -/
namespace Refinement
open Execution

variable {State Action View : Type*} {step : State → Action → Option State}
  {allowed : State → Action → Prop} {init : State} {view : State → View} {Move : View → View → Prop}

def Refines (step : State → Action → Option State) (allowed : State → Action → Prop) (init : State)
    (view : State → View) (Move : View → View → Prop) : Prop :=
  ∀ s a t, Reachable step allowed init s → allowed s a → step s a = some t →
    view t = view s ∨ Move (view s) (view t)

section Transport
variable (refines : Refines step allowed init view Move)
include refines

/-- A part of an execution is a path of the abstract system. -/
theorem refines_path {s t : State} (reached : Reachable step allowed init s)
    (later : Reachable step allowed s t) : Relation.ReflTransGen Move (view s) (view t) := by
  induction later with
  | start => exact .refl
  | @next u v a before may taken path =>
    rcases refines u a v (reachable_trans reached before) may taken with same | moves
    · rw [same]
      exact path
    · exact path.tail moves

/-- An invariant of the moves holds of every view. -/
theorem refines_invariant {P : View → Prop} (start : P (view init))
    (kept : ∀ v w, P v → Move v w → P w) {s : State} (reached : Reachable step allowed init s) :
    P (view s) := by
  refine reachable_invariant (P := fun s => P (view s)) start (fun s a t before held may taken => ?_) reached
  rcases refines s a t before may taken with same | moves
  · rw [same]
    exact held
  · exact kept _ _ held moves

end Transport

end Refinement

import Mathlib

/- Event sourcing: a state is rebuilt by folding a log of events through a step that may
   reject one. Rejection ends the fold. -/
namespace Replay
variable {σ ε err : Type*}

def replay (step : σ → ε → Except err σ) (s : σ) (events : List ε) : Except err σ :=
  events.foldlM step s

section
variable {step : σ → ε → Except err σ}

@[simp] theorem replay_nil (s : σ) : replay step s [] = .ok s := rfl

theorem replay_cons (s : σ) (e : ε) (events : List ε) :
    replay step s (e :: events) = (step s e).bind fun t => replay step t events := by
  simp only [replay, List.foldlM_cons]
  rfl

theorem replay_append (s : σ) (xs ys : List ε) :
    replay step s (xs ++ ys) = (replay step s xs).bind fun t => replay step t ys := by
  simp only [replay, List.foldlM_append]
  rfl

theorem replay_cons_ok {s t : σ} {e : ε} {events : List ε} :
    replay step s (e :: events) = .ok t ↔
      ∃ u, step s e = .ok u ∧ replay step u events = .ok t := by
  rw [replay_cons]
  cases step s e <;> simp [Except.bind]

theorem replay_append_ok {s t : σ} {xs ys : List ε} :
    replay step s (xs ++ ys) = .ok t ↔
      ∃ u, replay step s xs = .ok u ∧ replay step u ys = .ok t := by
  rw [replay_append]
  cases replay step s xs <;> simp [Except.bind]

@[simp] theorem replay_singleton (s : σ) (e : ε) : replay step s [e] = step s e := by
  rw [replay_cons]
  cases step s e <;> rfl

theorem replay_snoc_ok {s t : σ} {xs : List ε} {e : ε} :
    replay step s (xs ++ [e]) = .ok t ↔ ∃ u, replay step s xs = .ok u ∧ step u e = .ok t := by
  rw [replay_append_ok]
  simp only [replay_singleton]

/-- An accepted log satisfies whatever every accepted event preserves. The invariant may
    speak about the part of the log already folded. -/
theorem replay_invariant {P : List ε → σ → Prop} {s t : σ} {events : List ε}
    (start : P [] s)
    (preserved : ∀ seen e t u, P seen t → step t e = .ok u → P (seen ++ [e]) u)
    (accepted : replay step s events = .ok t) : P events t := by
  induction events using List.reverseRecOn generalizing t with
  | nil =>
    cases accepted
    exact start
  | append_singleton seen e ih =>
    obtain ⟨u, before, last⟩ := replay_snoc_ok.mp accepted
    exact preserved seen e u t (ih before) last

/-- When every accepted event raises a measure, a log and a proper extension of it never
    fold to the same state. -/
theorem replay_measure {m : σ → Int} (raises : ∀ s e t, step s e = .ok t → m s < m t)
    {s t : σ} {events : List ε} (accepted : replay step s events = .ok t) :
    m s + events.length ≤ m t := by
  induction events generalizing s with
  | nil =>
    cases accepted
    simp
  | cons e rest ih =>
    obtain ⟨u, first, later⟩ := replay_cons_ok.mp accepted
    have raised := raises s e u first
    have tail := ih later
    simp only [List.length_cons]
    push_cast
    omega

end

theorem to_option_some {x : Except err σ} {s : σ} : x.toOption = some s ↔ x = .ok s := by
  cases x <;> simp [Except.toOption]

section Numbering

/-- The sequence numbers of a log of `n` events. -/
def numbering (n : Nat) : List Int := (List.range n).map fun i : Nat => (i : Int) + 1

@[simp] theorem numbering_zero : numbering 0 = [] := rfl

theorem numbering_succ (n : Nat) : numbering (n + 1) = numbering n ++ [(n : Int) + 1] := by
  simp [numbering, List.range_succ]

@[simp] theorem numbering_length (n : Nat) : (numbering n).length = n := by
  simp [numbering]

theorem numbering_sorted (n : Nat) : (numbering n).Pairwise (· < ·) := by
  rw [numbering, List.pairwise_map]
  exact List.pairwise_lt_range.imp fun lt => by omega

theorem mem_numbering {n : Nat} {i : Int} : i ∈ numbering n ↔ 1 ≤ i ∧ i ≤ n := by
  simp only [numbering, List.mem_map, List.mem_range]
  constructor
  · rintro ⟨j, below, rfl⟩
    omega
  · rintro ⟨low, high⟩
    exact ⟨(i - 1).toNat, by omega, by omega⟩

theorem numbering_max (n : Nat) : (numbering n).max?.getD 0 = n := by
  cases n with
  | zero => rfl
  | succ n =>
    have largest : (numbering (n + 1)).max? = some ((n : Int) + 1) := by
      refine List.max?_eq_some_iff.mpr ⟨mem_numbering.mpr (by omega), fun i member => ?_⟩
      have bounds := mem_numbering.mp member
      omega
    simp [largest]

end Numbering

end Replay

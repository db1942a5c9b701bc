import Mathlib

/- Jobs of tasks that need each other, each task with one effect on the world outside. Whatever
   carries a job out performs an effect once all that its task needs is done, notes a task done
   after its effect, and ends the job when all is done or when it gives up. -/
namespace Jobs
variable {Id Task : Type*}

inductive Outcome where
  | running
  | completed
  | failed

structure Job (Task : Type*) where
  tasks : Set Task
  needs : Task → Set Task
  performed : Set Task
  done : Set Task
  outcome : Outcome

def Job.Fresh (job : Job Task) : Prop :=
  job.tasks.Nonempty ∧ job.performed = ∅ ∧ job.done = ∅ ∧ job.outcome = .running

/-- A job that has been given up may still see an effect that was on its way. -/
inductive Job.Move (job : Job Task) : Job Task → Prop where
  | perform (t : Task) (member : t ∈ job.tasks) (new : t ∉ job.performed)
      (ready : job.needs t ⊆ job.done) : Move job { job with performed := insert t job.performed }
  | complete (t : Task) (running : job.outcome = .running) (performed : t ∈ job.performed)
      (open' : t ∉ job.done) (left : ¬ job.tasks ⊆ insert t job.done) :
      Move job { job with done := insert t job.done }
  | finish (t : Task) (running : job.outcome = .running) (performed : t ∈ job.performed)
      (open' : t ∉ job.done) (all : job.tasks ⊆ insert t job.done) :
      Move job { job with done := insert t job.done, outcome := .completed }
  | fail (t : Task) (running : job.outcome = .running) (member : t ∈ job.tasks)
      (open' : t ∉ job.done) (ready : job.needs t ⊆ job.done) :
      Move job { job with outcome := .failed }

/-- Jobs are submitted under names not in use, and move one at a time. -/
inductive Move [DecidableEq Id] (board : Id → Option (Job Task)) : (Id → Option (Job Task)) → Prop where
  | submit (id : Id) (job : Job Task) (absent : board id = none) (fresh : job.Fresh) :
      Move board (Function.update board id (some job))
  | move (id : Id) (job job' : Job Task) (here : board id = some job) (moves : job.Move job') :
      Move board (Function.update board id (some job'))

structure Job.Sound (job : Job Task) : Prop where
  nonempty : job.tasks.Nonempty
  done : job.done ⊆ job.performed
  performed : job.performed ⊆ job.tasks
  ready : ∀ t ∈ job.performed, job.needs t ⊆ job.done
  completed : job.outcome = .completed ↔ job.tasks ⊆ job.done

section Job
variable {job job' : Job Task}

theorem fresh_sound (fresh : job.Fresh) : job.Sound := by
  obtain ⟨nonempty, performed, done, running⟩ := fresh
  refine ⟨nonempty, by simp [done], by simp [performed], by simp [performed], ?_⟩
  simp [done, running, nonempty.ne_empty]

theorem move_sound (sound : job.Sound) (moves : job.Move job') : job'.Sound := by
  obtain ⟨nonempty, done, performed, ready, completed⟩ := sound
  cases moves with
  | perform t member new needs =>
    refine ⟨nonempty, done.trans (Set.subset_insert t _), Set.insert_subset member performed, ?_, completed⟩
    rintro x (rfl | old)
    · exact needs
    · exact ready x old
  | complete t running took open' left =>
    refine ⟨nonempty, Set.insert_subset took done, performed, ?_, ?_⟩
    · exact fun x inside => (ready x inside).trans (Set.subset_insert t _)
    · simp [running, left]
  | finish t running took open' all =>
    refine ⟨nonempty, Set.insert_subset took done, performed, ?_, ?_⟩
    · exact fun x inside => (ready x inside).trans (Set.subset_insert t _)
    · simp [all]
  | fail t running member open' needs =>
    refine ⟨nonempty, done, performed, ready, ?_⟩
    simp only [reduceCtorEq, false_iff]
    exact fun all => open' (all member)

/-- What no move takes back. -/
structure Job.Later (job job' : Job Task) : Prop where
  tasks : job'.tasks = job.tasks
  needs : job'.needs = job.needs
  performed : job.performed ⊆ job'.performed
  done : job.done ⊆ job'.done
  completed : job.outcome = .completed → job' = job
  failed : job.outcome = .failed → job'.outcome = .failed ∧ job'.done = job.done

theorem later_refl (job : Job Task) : job.Later job :=
  ⟨rfl, rfl, subset_rfl, subset_rfl, fun _ => rfl, fun failed => ⟨failed, rfl⟩⟩

theorem later_trans {job'' : Job Task} (first : job.Later job') (second : job'.Later job'') :
    job.Later job'' := by
  refine ⟨second.tasks.trans first.tasks, second.needs.trans first.needs,
    first.performed.trans second.performed, first.done.trans second.done, ?_, ?_⟩
  · intro completed
    have same := first.completed completed
    exact (second.completed (same ▸ completed)).trans same
  · intro failed
    obtain ⟨failed', done⟩ := first.failed failed
    obtain ⟨failed'', done'⟩ := second.failed failed'
    exact ⟨failed'', done'.trans done⟩

theorem move_later (sound : job.Sound) (moves : job.Move job') : job.Later job' := by
  have total : job.outcome = .completed → ∀ t ∈ job.tasks, t ∈ job.performed := fun completed t member =>
    sound.done (sound.completed.mp completed member)
  cases moves with
  | perform t member new ready =>
    refine ⟨rfl, rfl, Set.subset_insert t _, subset_rfl, ?_, fun failed => ⟨failed, rfl⟩⟩
    exact fun completed => absurd (total completed t member) new
  | complete t running performed open' left =>
    refine ⟨rfl, rfl, subset_rfl, Set.subset_insert t _, ?_, ?_⟩ <;> simp [running]
  | finish t running performed open' all =>
    refine ⟨rfl, rfl, subset_rfl, Set.subset_insert t _, ?_, ?_⟩ <;> simp [running]
  | fail t running member open' ready =>
    refine ⟨rfl, rfl, subset_rfl, subset_rfl, ?_, ?_⟩ <;> simp [running]

end Job

def Sound (board : Id → Option (Job Task)) : Prop := ∀ id job, board id = some job → job.Sound

theorem empty_sound : Sound fun _ : Id => (none : Option (Job Task)) := by
  intro id job held
  cases held

section Board
variable [DecidableEq Id] {board board' : Id → Option (Job Task)}

theorem board_move_sound (sound : Sound board) (moves : Move board board') : Sound board' := by
  intro id job held
  cases moves with
  | submit other new absent fresh =>
    by_cases here : id = other
    · subst here
      rw [Function.update_self, Option.some.injEq] at held
      exact held ▸ fresh_sound fresh
    · rw [Function.update_of_ne here] at held
      exact sound id job held
  | move other old new there moves =>
    by_cases here : id = other
    · subst here
      rw [Function.update_self, Option.some.injEq] at held
      exact held ▸ move_sound (sound id old there) moves
    · rw [Function.update_of_ne here] at held
      exact sound id job held

theorem board_move_later (sound : Sound board) (moves : Move board board') {id : Id} {job : Job Task}
    (held : board id = some job) : ∃ job', board' id = some job' ∧ job.Later job' := by
  cases moves with
  | submit other new absent fresh =>
    have differs : id ≠ other := by
      rintro rfl
      rw [absent] at held
      cases held
    exact ⟨job, by rw [Function.update_of_ne differs, held], later_refl job⟩
  | move other old new there moves =>
    by_cases here : id = other
    · subst here
      rw [held, Option.some.injEq] at there
      subst there
      exact ⟨new, Function.update_self .., move_later (sound id job held) moves⟩
    · exact ⟨job, by rw [Function.update_of_ne here, held], later_refl job⟩

/-- Boards that differ at one name differ by a move there, or not at all. -/
theorem move_at (id : Id) (others : ∀ other, other ≠ id → board' other = board other)
    (here : board' id = board id ∨ ∃ job job', board id = some job ∧ board' id = some job' ∧
      job.Move job') : board' = board ∨ Move board board' := by
  have updated : board' = Function.update board id (board' id) := by
    funext other
    by_cases same : other = id
    · rw [same, Function.update_self]
    · rw [Function.update_of_ne same, others other same]
  rcases here with same | ⟨job, job', before, after, moves⟩
  · exact .inl (by rw [updated, same, Function.update_eq_self])
  · rw [updated, after]
    exact .inr (.move id job job' before moves)

theorem submit_at (id : Id) (others : ∀ other, other ≠ id → board' other = board other)
    {job : Job Task} (absent : board id = none) (here : board' id = some job) (fresh : job.Fresh) :
    Move board board' := by
  have updated : board' = Function.update board id (some job) := by
    funext other
    by_cases same : other = id
    · rw [same, Function.update_self, here]
    · rw [Function.update_of_ne same, others other same]
  rw [updated]
  exact .submit id job absent fresh

/-- Every job stays on the board, and nothing about it is taken back. -/
theorem board_later (sound : Sound board) (path : Relation.ReflTransGen Move board board') {id : Id}
    {job : Job Task} (held : board id = some job) : ∃ job', board' id = some job' ∧ job.Later job' := by
  have both : Sound board' ∧ ∃ job', board' id = some job' ∧ job.Later job' := by
    induction path with
    | refl => exact ⟨sound, job, held, later_refl job⟩
    | tail _ moves ih =>
      obtain ⟨sound', job', held', later⟩ := ih
      obtain ⟨job'', held'', later'⟩ := board_move_later sound' moves held'
      exact ⟨board_move_sound sound' moves, job'', held'', later_trans later later'⟩
  exact both.2

end Board

end Jobs

import Crashsafe.Library.Execution
import Crashsafe.Library.Rows

/- supervisor.py: the processes it starts, replaces and stops, among processes that may exit
   whenever they like. -/
namespace Crashsafe
open Rows Execution

/- The keys of `processes`; `worker-{index}` is the worker's id as well. -/
inductive ProcessName where
  | tool
  | api
  | worker (index : Nat)
  deriving DecidableEq, Repr

/- A process is known by its place among all that were ever spawned. -/
structure Child where
  name : ProcessName
  exited : Bool
  terminated : Bool
  killed : Bool
  deriving DecidableEq, Repr

/- Where main stands: in start with names still to spawn, at the condition of monitor's loop, in
   one of its passes with processes still to poll, or in one of the two loops of stop. -/
inductive SupervisorPc where
  | starting (rest : List ProcessName)
  | monitoring
  | polling (rest : List (ProcessName × Nat))
  | terminating (rest : List Nat)
  | waiting (rest : List Nat)
  | ended
  deriving DecidableEq, Repr

structure SupervisorState where
  processes : List (ProcessName × Nat)
  children : List Child
  stopping : Bool
  raised : Bool
  pc : SupervisorPc
  deriving DecidableEq, Repr

/- `spawned` says whether Popen works, `timedOut` whether the wait ends before the process. -/
inductive SupervisorAction where
  | exit (pid : Nat)
  | requestStop
  | startNext (spawned : Bool)
  | check
  | poll (spawned : Bool)
  | terminateNext
  | waitNext (timedOut : Bool)
  deriving DecidableEq, Repr

/- What main does, not a child or a signal. -/
def SupervisorAction.own : SupervisorAction → Bool
  | .exit _ | .requestStop => false
  | _ => true

def processNames (workerCount : Nat) : List ProcessName :=
  .tool :: .api :: (List.range' 1 workerCount).map .worker

def SupervisorState.initial (workerCount : Nat) : SupervisorState :=
  ⟨[], [], false, false, .starting (processNames workerCount)⟩

section Steps

/-- `process.poll()` has a return code. -/
def SupervisorState.exited (s : SupervisorState) (pid : Nat) : Bool :=
  s.children[pid]?.any (·.exited)

def SupervisorState.mark (s : SupervisorState) (pid : Nat) (mark : Child → Child) : SupervisorState :=
  { s with children := s.children.modify pid mark }

/-- `self.processes[name] = self._spawn(...)`. -/
def SupervisorState.spawn (s : SupervisorState) (name : ProcessName) : SupervisorState :=
  { s with
    processes := upsert Prod.fst (fun old new => (old.1, new.2)) (name, s.children.length) s.processes
    children := s.children ++ [⟨name, false, false, false⟩] }

def supervisorStep (s : SupervisorState) : SupervisorAction → Option SupervisorState
  | .exit pid =>
    if s.children[pid]?.any fun child => !child.exited then
      some (s.mark pid fun child => { child with exited := true })
    else none
  | .requestStop => some { s with stopping := true }
  | .startNext spawned =>
    match s.pc with
    | .starting [] => some { s with pc := .monitoring }
    | .starting (name :: rest) =>
      if spawned then some { s.spawn name with pc := .starting rest }
      -- start() runs before the try, so nothing stops what it has spawned
      else some { s with raised := true, pc := .ended }
    | _ => none
  | .check =>
    match s.pc with
    | .monitoring =>
      if s.stopping then some { s with pc := .terminating (s.processes.map Prod.snd) }
      else some { s with pc := .polling s.processes }
    | _ => none
  | .poll spawned =>
    match s.pc with
    | .polling [] => some { s with pc := .monitoring }
    | .polling ((name, pid) :: rest) =>
      if s.exited pid then
        match name with
        | .worker index =>
          if spawned then some { s.spawn (.worker index) with pc := .polling rest }
          else some { s with raised := true, pc := .terminating (s.processes.map Prod.snd) }
        -- the pass goes on to the end
        | _ => some { s with stopping := true, pc := .polling rest }
      else some { s with pc := .polling rest }
    | _ => none
  | .terminateNext =>
    match s.pc with
    | .terminating [] => some { s with pc := .waiting (s.processes.map Prod.snd) }
    | .terminating (pid :: rest) =>
      if s.exited pid then some { s with pc := .terminating rest }
      else some { s.mark pid fun child => { child with terminated := true } with pc := .terminating rest }
    | _ => none
  | .waitNext timedOut =>
    match s.pc with
    | .waiting [] => some { s with pc := .ended }
    | .waiting (pid :: rest) =>
      if s.exited pid then some { s with pc := .waiting rest }
      else if timedOut then
        some { s.mark pid fun child => { child with killed := true } with pc := .waiting rest }
      else none
    | _ => none

end Steps

/- What is known of a process in the two loops of stop. -/
def Asked (children : List Child) (pid : Nat) : Prop :=
  ∃ child, children[pid]? = some child ∧ (child.exited = true ∨ child.terminated = true)

def Settled (children : List Child) (pid : Nat) : Prop :=
  ∃ child, children[pid]? = some child ∧ (child.exited = true ∨ child.killed = true)

/- The dict and the processes: whatever still runs is the current one of its name. -/
structure Tracked (processes : List (ProcessName × Nat)) (children : List Child) : Prop where
  distinct : (processes.map Prod.fst).Nodup
  current : ∀ item ∈ processes, ∃ child, children[item.2]? = some child ∧ child.name = item.1
  replaced : ∀ (pid : Nat) (child : Child), children[pid]? = some child →
    child.exited = true ∨ (child.name, pid) ∈ processes
  gentle : ∀ (pid : Nat) (child : Child), children[pid]? = some child → child.killed = true →
    child.terminated = true

section Tracking
variable {s : SupervisorState} {name : ProcessName} {pid q : Nat} {mark : Child → Child}

/- A process does not come back, and a signal is not taken back. -/
structure Marks (mark : Child → Child) : Prop where
  name : ∀ child, (mark child).name = child.name
  exited : ∀ child, child.exited = true → (mark child).exited = true
  terminated : ∀ child, child.terminated = true → (mark child).terminated = true
  killed : ∀ child, child.killed = true → (mark child).killed = true

theorem mark_child : (s.mark pid mark).children[q]? =
    (s.children[q]?).map fun child => if pid = q then mark child else child :=
  List.getElem?_modify mark pid s.children q

theorem marked_child {child : Child} (found : s.children[pid]? = some child) :
    (s.mark pid mark).children[pid]? = some (mark child) := by
  rw [mark_child, found, Option.map_some, if_pos rfl]

/-- One process less to deal with. -/
theorem dealt_with {rest : List Nat} {P Q : Nat → Prop} (waits : q ∈ pid :: rest ∨ P q)
    (kept : P q → Q q) (done : Q pid) : q ∈ rest ∨ Q q := by
  rcases waits with inside | known
  · rcases List.mem_cons.mp inside with rfl | later
    · exact .inr done
    · exact .inl later
  · exact .inr (kept known)

theorem exited_child : s.exited pid = true ↔ ∃ child, s.children[pid]? = some child ∧ child.exited = true :=
  Option.any_eq_true _ _

theorem asked_mark (marks : Marks mark) (asked : Asked s.children q) :
    Asked (s.mark pid mark).children q := by
  obtain ⟨child, found, known⟩ := asked
  refine ⟨_, by rw [mark_child, found]; rfl, ?_⟩
  split
  · exact known.imp (marks.exited child) (marks.terminated child)
  · exact known

theorem settled_mark (marks : Marks mark) (settled : Settled s.children q) :
    Settled (s.mark pid mark).children q := by
  obtain ⟨child, found, known⟩ := settled
  refine ⟨_, by rw [mark_child, found]; rfl, ?_⟩
  split
  · exact known.imp (marks.exited child) (marks.killed child)
  · exact known

theorem tracked_mark (tracked : Tracked s.processes s.children) (marks : Marks mark)
    (gentle : ∀ child, s.children[pid]? = some child → (mark child).killed = true →
      (mark child).terminated = true) : Tracked s.processes (s.mark pid mark).children := by
  refine ⟨tracked.distinct, fun item member => ?_, fun q child found => ?_, fun q child found => ?_⟩
  · obtain ⟨child, found, named⟩ := tracked.current item member
    refine ⟨_, by rw [mark_child, found]; rfl, ?_⟩
    split
    · exact (marks.name child).trans named
    · exact named
  · rw [mark_child] at found
    obtain ⟨old, before, rfl⟩ := Option.map_eq_some_iff.mp found
    have known := tracked.replaced q old before
    split
    · rw [marks.name old]
      exact known.imp (marks.exited old) id
    · exact known
  · rw [mark_child] at found
    obtain ⟨old, before, rfl⟩ := Option.map_eq_some_iff.mp found
    split
    · rename_i here
      exact gentle old (here ▸ before)
    · exact tracked.gentle q old before

theorem mem_spawned {item : ProcessName × Nat} : item ∈ (s.spawn name).processes ↔
    (item ∈ s.processes ∧ item.1 ≠ name) ∨ item = (name, s.children.length) := by
  unfold SupervisorState.spawn
  rw [mem_upsert]
  constructor
  · rintro (old | ⟨old, _, same, rfl⟩ | ⟨rfl, _⟩)
    · exact .inl old
    · exact .inr (Prod.ext same rfl)
    · exact .inr rfl
  · rintro (old | rfl)
    · exact .inl old
    · by_cases taken : ∃ old ∈ s.processes, old.1 = name
      · obtain ⟨old, inside, same⟩ := taken
        exact .inr (.inl ⟨old, inside, same, Prod.ext same rfl⟩)
      · exact .inr (.inr ⟨rfl, fun old inside same => taken ⟨old, inside, same⟩⟩)

theorem spawned_child {child : Child} : (s.spawn name).children[q]? = some child ↔
    s.children[q]? = some child ∨ (q = s.children.length ∧ child = ⟨name, false, false, false⟩) := by
  unfold SupervisorState.spawn
  simp only
  rcases Nat.lt_trichotomy q s.children.length with old | rfl | past
  · rw [List.getElem?_append_left old]
    simp [Nat.ne_of_lt old]
  · simp [eq_comm]
  · rw [List.getElem?_eq_none (by simp; omega), List.getElem?_eq_none (by omega)]
    simp [Nat.ne_of_gt past]

/-- A process may take a name that no running process has. -/
theorem tracked_spawn (tracked : Tracked s.processes s.children)
    (free : ∀ pid, (name, pid) ∈ s.processes → s.exited pid = true) :
    Tracked (s.spawn name).processes (s.spawn name).children := by
  have distinct : ((s.spawn name).processes.map Prod.fst).Nodup := by
    change ((upsert Prod.fst (fun old new => (old.1, new.2)) (name, s.children.length)
      s.processes).map Prod.fst).Nodup
    exact upsert_keys_distinct (fun _ => rfl) tracked.distinct
  refine ⟨distinct, fun item member => ?_, fun q child found => ?_, fun q child found => ?_⟩
  · rcases mem_spawned.mp member with ⟨old, _⟩ | rfl
    · obtain ⟨child, found, named⟩ := tracked.current item old
      exact ⟨child, spawned_child.mpr (.inl found), named⟩
    · exact ⟨_, spawned_child.mpr (.inr ⟨rfl, rfl⟩), rfl⟩
  · rcases spawned_child.mp found with old | ⟨rfl, rfl⟩
    · rcases tracked.replaced q child old with exited | inside
      · exact .inl exited
      · by_cases same : child.name = name
        · obtain ⟨child', found', exited⟩ := exited_child.mp (free q (same ▸ inside))
          obtain rfl : child = child' := Option.some.inj (old.symm.trans found')
          exact .inl exited
        · exact .inr (mem_spawned.mpr (.inl ⟨inside, same⟩))
    · exact .inr (mem_spawned.mpr (.inr rfl))
  · rcases spawned_child.mp found with old | ⟨rfl, rfl⟩
    · exact tracked.gentle q child old
    · exact nofun

theorem spawned_names_new (absent : name ∉ s.processes.map Prod.fst) :
    (s.spawn name).processes.map Prod.fst = s.processes.map Prod.fst ++ [name] := by
  unfold SupervisorState.spawn upsert
  rw [if_neg (by simpa using absent)]
  simp

theorem spawned_names_same (present : name ∈ s.processes.map Prod.fst) :
    (s.spawn name).processes.map Prod.fst = s.processes.map Prod.fst := by
  unfold SupervisorState.spawn upsert
  rw [if_pos (by simpa using present)]
  exact map_updateWhere (f := fun old => (old.1, s.children.length)) (fun old _ => rfl) s.processes

end Tracking

/- What main knows of its processes where it stands. -/
def SupervisorState.Stands (workerCount : Nat) (s : SupervisorState) : Prop :=
  match s.pc with
  | .starting rest => s.processes.map Prod.fst ++ rest = processNames workerCount
  | .monitoring => s.processes.map Prod.fst = processNames workerCount
  | .polling rest => s.processes.map Prod.fst = processNames workerCount ∧ rest ⊆ s.processes ∧
      (rest.map Prod.fst).Nodup
  | .terminating rest => s.processes.map Prod.fst = processNames workerCount ∧
      rest <:+ s.processes.map Prod.snd ∧ ∀ item ∈ s.processes, item.2 ∈ rest ∨ Asked s.children item.2
  | .waiting rest => s.processes.map Prod.fst = processNames workerCount ∧
      rest <:+ s.processes.map Prod.snd ∧ (∀ item ∈ s.processes, Asked s.children item.2) ∧
      ∀ item ∈ s.processes, item.2 ∈ rest ∨ Settled s.children item.2
  | .ended => (s.raised = true ∧ s.processes.map Prod.fst ≠ processNames workerCount) ∨
      ∀ item ∈ s.processes, Settled s.children item.2

/- The invariant of the supervisor. -/
structure Supervised (workerCount : Nat) (s : SupervisorState) : Prop where
  tracked : Tracked s.processes s.children
  stands : s.Stands workerCount

section Invariant
variable {workerCount : Nat} {s t : SupervisorState} {a : SupervisorAction}

theorem process_names_distinct (workerCount : Nat) : (processNames workerCount).Nodup := by
  have workers : ((List.range' 1 workerCount).map ProcessName.worker).Nodup :=
    List.Nodup.map (fun a b same => ProcessName.worker.inj same) (List.nodup_range' 1)
  simp [processNames, workers]

theorem stands_initial (workerCount : Nat) : Supervised workerCount (.initial workerCount) := by
  refine ⟨⟨.nil, nofun, ?_, ?_⟩, rfl⟩
  · intro pid child found
    simp [SupervisorState.initial] at found
  · intro pid child found
    simp [SupervisorState.initial] at found

/-- Marks of the environment and of stop leave what main knows true. -/
theorem stands_mark {mark : Child → Child} {pid : Nat} (marks : Marks mark)
    (stands : s.Stands workerCount) : (s.mark pid mark).Stands workerCount := by
  obtain ⟨processes, children, stopping, raised, pc⟩ := s
  cases pc with
  | starting | monitoring | polling => exact stands
  | terminating rest =>
    obtain ⟨names, inside, asked⟩ := stands
    exact ⟨names, inside, fun item member => (asked item member).imp id (asked_mark marks)⟩
  | waiting rest =>
    obtain ⟨names, inside, asked, settled⟩ := stands
    exact ⟨names, inside, fun item member => asked_mark marks (asked item member),
      fun item member => (settled item member).imp id (settled_mark marks)⟩
  | ended => exact stands.imp id fun settled item member => settled_mark marks (settled item member)

theorem exit_marks : Marks fun child => { child with exited := true } :=
  ⟨fun _ => rfl, fun _ _ => rfl, fun _ => id, fun _ => id⟩

theorem terminate_marks : Marks fun child => { child with terminated := true } :=
  ⟨fun _ => rfl, fun _ => id, fun _ _ => rfl, fun _ => id⟩

theorem kill_marks : Marks fun child => { child with killed := true } :=
  ⟨fun _ => rfl, fun _ => id, fun _ => id, fun _ _ => rfl⟩

theorem supervised_start (h : Supervised workerCount s) {spawned : Bool}
    (taken : supervisorStep s (.startNext spawned) = some t) : Supervised workerCount t := by
  obtain ⟨tracked, stands⟩ := h
  simp only [supervisorStep] at taken
  split at taken
  · rename_i here
    cases taken
    simp only [SupervisorState.Stands, here, List.append_nil] at stands
    exact ⟨tracked, stands⟩
  · rename_i name rest here
    simp only [SupervisorState.Stands, here] at stands
    have distinct := stands ▸ process_names_distinct workerCount
    have absent : name ∉ s.processes.map Prod.fst := fun present =>
      (List.nodup_append.mp distinct).2.2 name present name List.mem_cons_self rfl
    split at taken
    · cases taken
      refine ⟨tracked_spawn tracked fun pid member => ?_, ?_⟩
      · exact absurd (List.mem_map_of_mem member) absent
      · change (s.spawn name).processes.map Prod.fst ++ rest = processNames workerCount
        rw [spawned_names_new absent, List.append_assoc]
        exact stands
    · cases taken
      refine ⟨tracked, .inl ⟨rfl, fun all => ?_⟩⟩
      have all : s.processes.map Prod.fst = processNames workerCount := all
      rw [← stands] at all
      simp at all
  · cases taken

theorem supervised_check (h : Supervised workerCount s)
    (taken : supervisorStep s .check = some t) : Supervised workerCount t := by
  obtain ⟨tracked, stands⟩ := h
  simp only [supervisorStep] at taken
  split at taken
  · rename_i here
    simp only [SupervisorState.Stands, here] at stands
    split at taken
    · cases taken
      exact ⟨tracked, stands, List.suffix_refl _, fun item member => .inl (List.mem_map_of_mem member)⟩
    · cases taken
      exact ⟨tracked, stands, List.Subset.refl _, tracked.distinct⟩
  · cases taken

/-- A pass replaces a worker that has exited and keeps every slot filled. -/
theorem supervised_poll (h : Supervised workerCount s) {spawned : Bool}
    (taken : supervisorStep s (.poll spawned) = some t) : Supervised workerCount t := by
  obtain ⟨tracked, stands⟩ := h
  simp only [supervisorStep] at taken
  split at taken
  · rename_i here
    cases taken
    simp only [SupervisorState.Stands, here] at stands
    exact ⟨tracked, stands.1⟩
  · rename_i name pid rest here
    simp only [SupervisorState.Stands, here] at stands
    obtain ⟨names, inside, distinct⟩ := stands
    rw [List.map_cons, List.nodup_cons] at distinct
    have member := inside List.mem_cons_self
    have left : rest ⊆ s.processes := fun item there => inside (List.mem_cons_of_mem _ there)
    split at taken
    · rename_i exited
      split at taken
      · rename_i index
        split at taken
        · cases taken
          have free : ∀ q, (ProcessName.worker index, q) ∈ s.processes → s.exited q = true := by
            intro q there
            have same := List.inj_on_of_nodup_map tracked.distinct there member rfl
            obtain rfl : q = pid := congrArg Prod.snd same
            exact exited
          refine ⟨tracked_spawn tracked free, ?_, fun item there => ?_, distinct.2⟩
          · exact (spawned_names_same (List.mem_map_of_mem member)).trans names
          · refine mem_spawned.mpr (.inl ⟨left there, fun same => distinct.1 ?_⟩)
            exact List.mem_map.mpr ⟨item, there, same⟩
        · cases taken
          exact ⟨tracked, names, List.suffix_refl _, fun item there => .inl (List.mem_map_of_mem there)⟩
      · cases taken
        exact ⟨tracked, names, left, distinct.2⟩
    · cases taken
      exact ⟨tracked, names, left, distinct.2⟩
  · cases taken

theorem asked_of_exited {pid : Nat} (exited : s.exited pid = true) : Asked s.children pid := by
  obtain ⟨child, found, exited⟩ := exited_child.mp exited
  exact ⟨child, found, .inl exited⟩

theorem settled_of_exited {pid : Nat} (exited : s.exited pid = true) : Settled s.children pid := by
  obtain ⟨child, found, exited⟩ := exited_child.mp exited
  exact ⟨child, found, .inl exited⟩

theorem supervised_terminate (h : Supervised workerCount s)
    (taken : supervisorStep s .terminateNext = some t) : Supervised workerCount t := by
  obtain ⟨tracked, stands⟩ := h
  simp only [supervisorStep] at taken
  split at taken
  · rename_i here
    cases taken
    simp only [SupervisorState.Stands, here] at stands
    obtain ⟨names, _, asked⟩ := stands
    refine ⟨tracked, names, List.suffix_refl _, fun item member => ?_, fun item member =>
      .inl (List.mem_map_of_mem member)⟩
    exact (asked item member).resolve_left nofun
  · rename_i pid rest here
    simp only [SupervisorState.Stands, here] at stands
    obtain ⟨names, inside, asked⟩ := stands
    have left : rest <:+ s.processes.map Prod.snd := (List.suffix_cons pid rest).trans inside
    obtain ⟨process, member, here'⟩ := List.mem_map.mp (inside.subset List.mem_cons_self)
    obtain ⟨child, found, _⟩ := tracked.current process member
    rw [here'] at found
    split at taken
    · rename_i exited
      cases taken
      exact ⟨tracked, names, left, fun item there => dealt_with (asked item there) id
        (asked_of_exited exited)⟩
    · cases taken
      have done : Asked (s.mark pid fun child => { child with terminated := true }).children pid :=
        ⟨_, marked_child found, .inr rfl⟩
      exact ⟨tracked_mark tracked terminate_marks fun _ _ _ => rfl, names, left, fun item there =>
        dealt_with (asked item there) (asked_mark terminate_marks) done⟩
  · cases taken

theorem supervised_wait (h : Supervised workerCount s) {timedOut : Bool}
    (taken : supervisorStep s (.waitNext timedOut) = some t) : Supervised workerCount t := by
  obtain ⟨tracked, stands⟩ := h
  simp only [supervisorStep] at taken
  split at taken
  · rename_i here
    cases taken
    simp only [SupervisorState.Stands, here] at stands
    obtain ⟨names, _, _, settled⟩ := stands
    exact ⟨tracked, .inr fun item member => (settled item member).resolve_left nofun⟩
  · rename_i pid rest here
    simp only [SupervisorState.Stands, here] at stands
    obtain ⟨names, inside, asked, settled⟩ := stands
    have left : rest <:+ s.processes.map Prod.snd := (List.suffix_cons pid rest).trans inside
    obtain ⟨process, member, here'⟩ := List.mem_map.mp (inside.subset List.mem_cons_self)
    obtain ⟨child, found, known⟩ := asked process member
    rw [here'] at found
    split at taken
    · rename_i exited
      cases taken
      exact ⟨tracked, names, left, asked, fun item there => dealt_with (settled item there) id
        (settled_of_exited exited)⟩
    · rename_i running
      split at taken
      · cases taken
        have terminated : child.terminated = true :=
          known.resolve_left fun exited => running (exited_child.mpr ⟨child, found, exited⟩)
        have done : Settled (s.mark pid fun child => { child with killed := true }).children pid :=
          ⟨_, marked_child found, .inr rfl⟩
        refine ⟨tracked_mark tracked kill_marks fun child' found' _ => ?_, names, left,
          fun item there => asked_mark kill_marks (asked item there), fun item there =>
            dealt_with (settled item there) (settled_mark kill_marks) done⟩
        rw [← Option.some.inj (found.symm.trans found')]
        exact terminated
      · cases taken
  · cases taken

theorem supervised_step (h : Supervised workerCount s) (taken : supervisorStep s a = some t) :
    Supervised workerCount t := by
  cases a with
  | exit pid =>
    simp only [supervisorStep] at taken
    split at taken
    · cases taken
      exact ⟨tracked_mark h.tracked exit_marks fun child found killed =>
        h.tracked.gentle pid child found killed, stands_mark exit_marks h.stands⟩
    · cases taken
  | requestStop =>
    cases taken
    exact ⟨h.tracked, h.stands⟩
  | startNext spawned => exact supervised_start h taken
  | check => exact supervised_check h taken
  | poll spawned => exact supervised_poll h taken
  | terminateNext => exact supervised_terminate h taken
  | waitNext timedOut => exact supervised_wait h taken

theorem supervised_reachable (reached : Reachable supervisorStep anyStep (.initial workerCount) s) :
    Supervised workerCount s :=
  reachable_invariant (stands_initial workerCount) (fun _ _ _ _ h _ taken => supervised_step h taken)
    reached

end Invariant

section Stopping
variable {workerCount : Nat} {s t : SupervisorState} {a : SupervisorAction}

/-- How many steps of its own main has left, once it is asked to stop. -/
def SupervisorState.ownLeft (workerCount : Nat) (s : SupervisorState) : Nat :=
  let slots := workerCount + 2
  match s.pc with
  | .starting rest => rest.length + 1 + (2 * slots + 3)
  | .monitoring => 2 * slots + 3
  | .polling rest => rest.length + 1 + (2 * slots + 3)
  | .terminating rest => rest.length + 1 + (slots + 1)
  | .waiting rest => rest.length + 1
  | .ended => 0

theorem names_length (names : s.processes.map Prod.fst = processNames workerCount) :
    s.processes.length = workerCount + 2 := by
  have length := congrArg List.length names
  simpa [processNames] using length

theorem stop_stays (asked : s.stopping = true) (taken : supervisorStep s a = some t) :
    t.stopping = true := by
  cases a <;> simp only [supervisorStep] at taken <;> grind [SupervisorState.mark, SupervisorState.spawn]

/-- Of a main that is to stop, its own steps leave less to do, those of children and signals no
    more. -/
theorem own_left_step (h : Supervised workerCount s) (asked : s.stopping = true)
    (taken : supervisorStep s a = some t) : (Supervised workerCount t ∧ t.stopping = true) ∧
      t.ownLeft workerCount + (if a.own = true then 1 else 0) ≤ s.ownLeft workerCount := by
  refine ⟨⟨supervised_step h taken, stop_stays asked taken⟩, ?_⟩
  have stands := h.stands
  cases a with
  | exit pid =>
    simp only [supervisorStep] at taken
    split at taken
    · cases taken
      exact le_rfl
    · cases taken
  | requestStop =>
    cases taken
    exact le_rfl
  | startNext spawned =>
    simp only [supervisorStep] at taken
    split at taken
    · rename_i here
      cases taken
      simp [SupervisorState.ownLeft, here, SupervisorAction.own]
    · rename_i here
      split at taken
      · cases taken
        simp [SupervisorState.ownLeft, here, SupervisorAction.own]
      · cases taken
        simp [SupervisorState.ownLeft, here, SupervisorAction.own]
        omega
    · cases taken
  | check =>
    simp only [supervisorStep] at taken
    split at taken
    · rename_i here
      simp only [SupervisorState.Stands, here] at stands
      have length := names_length stands
      rw [if_pos asked] at taken
      cases taken
      simp [SupervisorState.ownLeft, here, SupervisorAction.own, length]
      omega
    · cases taken
  | poll spawned =>
    simp only [supervisorStep] at taken
    split at taken
    · rename_i here
      cases taken
      simp [SupervisorState.ownLeft, here, SupervisorAction.own]
    · rename_i here
      simp only [SupervisorState.Stands, here] at stands
      have length := names_length stands.1
      split at taken
      · split at taken
        · split at taken
          · cases taken
            simp [SupervisorState.ownLeft, here, SupervisorAction.own]
          · cases taken
            simp [SupervisorState.ownLeft, here, SupervisorAction.own, length]
            omega
        · cases taken
          simp [SupervisorState.ownLeft, here, SupervisorAction.own]
      · cases taken
        simp [SupervisorState.ownLeft, here, SupervisorAction.own]
    · cases taken
  | terminateNext =>
    simp only [supervisorStep] at taken
    split at taken
    · rename_i here
      simp only [SupervisorState.Stands, here] at stands
      have length := names_length stands.1
      cases taken
      simp [SupervisorState.ownLeft, here, SupervisorAction.own, length]
    · rename_i here
      split at taken <;> cases taken <;>
        simp [SupervisorState.ownLeft, here, SupervisorAction.own]
    · cases taken
  | waitNext timedOut =>
    simp only [supervisorStep] at taken
    split at taken
    · rename_i here
      cases taken
      simp [SupervisorState.ownLeft, here, SupervisorAction.own]
    · rename_i here
      split at taken
      · cases taken
        simp [SupervisorState.ownLeft, here, SupervisorAction.own]
      · split at taken <;> cases taken
        simp [SupervisorState.ownLeft, here, SupervisorAction.own]
    · cases taken

theorem own_left_bound (h : Supervised workerCount s) :
    s.ownLeft workerCount ≤ 3 * workerCount + 10 := by
  have stands := h.stands
  unfold SupervisorState.ownLeft
  cases here : s.pc with
  | starting rest =>
    simp only [SupervisorState.Stands, here] at stands
    have length := congrArg List.length stands
    simp [processNames] at length
    simp only
    omega
  | polling rest =>
    simp only [SupervisorState.Stands, here] at stands
    obtain ⟨names, inside, distinct⟩ := stands
    have length := (List.subperm_of_subset distinct.of_map inside).length_le
    rw [names_length names] at length
    simp only
    omega
  | terminating rest =>
    simp only [SupervisorState.Stands, here] at stands
    have length := stands.2.1.length_le
    rw [List.length_map, names_length stands.1] at length
    simp only
    omega
  | waiting rest =>
    simp only [SupervisorState.Stands, here] at stands
    have length := stands.2.1.length_le
    rw [List.length_map, names_length stands.1] at length
    simp only
    omega
  | monitoring =>
    simp only
    omega
  | ended => exact Nat.zero_le _

/-- Until main has ended some step of its own is possible. -/
theorem main_moves (unfinished : s.pc ≠ .ended) :
    ∃ a t, a.own = true ∧ supervisorStep s a = some t := by
  cases here : s.pc with
  | starting rest =>
    refine ⟨.startNext true, ?_⟩
    cases rest <;> simp [supervisorStep, here, SupervisorAction.own]
  | monitoring =>
    refine ⟨.check, ?_⟩
    cases stop : s.stopping <;> simp [supervisorStep, here, SupervisorAction.own, stop]
  | polling rest =>
    refine ⟨.poll true, ?_⟩
    cases rest with
    | nil => simp [supervisorStep, here, SupervisorAction.own]
    | cons process rest =>
      obtain ⟨name, pid⟩ := process
      cases exited : s.exited pid <;> cases name <;>
        simp [supervisorStep, here, SupervisorAction.own, exited]
  | terminating rest =>
    refine ⟨.terminateNext, ?_⟩
    cases rest with
    | nil => simp [supervisorStep, here, SupervisorAction.own]
    | cons pid rest =>
      cases exited : s.exited pid <;> simp [supervisorStep, here, SupervisorAction.own, exited]
  | waiting rest =>
    refine ⟨.waitNext true, ?_⟩
    cases rest with
    | nil => simp [supervisorStep, here, SupervisorAction.own]
    | cons pid rest =>
      cases exited : s.exited pid <;> simp [supervisorStep, here, SupervisorAction.own, exited]
  | ended => exact absurd here unfinished

end Stopping

/- What holds of the supervisor at any time; `raised` without all names spawned is a start that
   failed, the one way to leave processes running. -/
structure SupervisorSound (workerCount : Nat) (s : SupervisorState) : Prop where
  single : ∀ (i j : Nat) (a b : Child), s.children[i]? = some a → s.children[j]? = some b →
    a.exited = false → b.exited = false → a.name = b.name → i = j
  staffed : s.pc = .monitoring → s.processes.map Prod.fst = processNames workerCount
  gentle : ∀ child ∈ s.children, child.killed = true → child.terminated = true
  settled : s.pc = .ended →
    (s.raised = true ∧ s.processes.map Prod.fst ≠ processNames workerCount) ∨
      ∀ child ∈ s.children, child.exited = true ∨ child.killed = true
  ends : s.stopping = true → ∀ actions t, runWhere supervisorStep (fun _ _ => True) s actions = some t →
    actions.countP SupervisorAction.own ≤ 3 * workerCount + 10
  moves : s.pc ≠ .ended → ∃ a t, a.own = true ∧ supervisorStep s a = some t

section Sound
variable {workerCount : Nat} {s : SupervisorState}

theorem running_single (tracked : Tracked s.processes s.children) {i j : Nat} {a b : Child}
    (first : s.children[i]? = some a) (second : s.children[j]? = some b)
    (runs : a.exited = false) (runs' : b.exited = false) (same : a.name = b.name) : i = j := by
  have here := (tracked.replaced i a first).resolve_left (by simp [runs])
  have there := (tracked.replaced j b second).resolve_left (by simp [runs'])
  exact congrArg Prod.snd (List.inj_on_of_nodup_map tracked.distinct here there same)

theorem supervisor_sound (reached : Reachable supervisorStep anyStep (.initial workerCount) s) :
    SupervisorSound workerCount s := by
  have h := supervised_reachable reached
  refine ⟨fun i j a b => running_single h.tracked, fun here => ?_, fun child member killed => ?_,
    fun here => ?_, fun asked actions t ran => ?_, main_moves⟩
  · have stands := h.stands
    simpa only [SupervisorState.Stands, here] using stands
  · obtain ⟨pid, found⟩ := List.mem_iff_getElem?.mp member
    exact h.tracked.gentle pid child found killed
  · have stands := h.stands
    simp only [SupervisorState.Stands, here] at stands
    refine stands.imp id fun settled child member => ?_
    obtain ⟨pid, found⟩ := List.mem_iff_getElem?.mp member
    rcases h.tracked.replaced pid child found with exited | current
    · exact .inl exited
    · obtain ⟨child', found', known⟩ := settled (child.name, pid) current
      rwa [Option.some.inj (found.symm.trans found')]
  · have left : t.ownLeft workerCount + actions.countP SupervisorAction.own ≤ s.ownLeft workerCount :=
      runWhere_countP (R := fun s => Supervised workerCount s ∧ s.stopping = true)
        (SupervisorState.ownLeft workerCount)
        (fun s a t known _ taken => own_left_step known.1 known.2 taken) actions ⟨h, asked⟩ ran
    have bound := own_left_bound h
    omega

/- A worker is killed from outside and replaced, then all are stopped; the replacement does not
   end in time. -/
def replacedWorker : List SupervisorAction :=
  [.startNext true, .startNext true, .startNext true, .startNext true, .check, .exit 2, .poll true,
    .poll true, .poll true, .poll true, .requestStop, .check, .terminateNext, .terminateNext,
    .terminateNext, .terminateNext, .exit 0, .exit 1, .waitNext false, .waitNext false, .waitNext true,
    .waitNext false]

theorem replaced_worker_sound : ∃ s, run supervisorStep (.initial 1) replacedWorker = some s ∧
    s.pc = .ended ∧ s.children.length = 4 ∧ SupervisorSound 1 s := by
  have ends : (run supervisorStep (.initial 1) replacedWorker).map (fun s => (s.pc, s.children.length)) =
      some (.ended, 4) := by
    decide
  obtain ⟨s, ran, ends⟩ := Option.map_eq_some_iff.mp ends
  exact ⟨s, ran, congrArg Prod.fst ends, congrArg Prod.snd ends,
    supervisor_sound (reachable_run replacedWorker (fun _ _ _ => trivial) .start ran)⟩

end Sound

end Crashsafe

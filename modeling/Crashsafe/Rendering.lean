import Crashsafe.Observability
import Crashsafe.HistorySoundness
import Crashsafe.Library.Lines

/- format_timeline. Content that fits a line is padded as it is, and only longer content goes
   through textwrap, so a line break in a text splits the box where the text is short. -/
namespace Crashsafe
open Lines

/- `c * n`. -/
def times (c : Char) (n : Nat) : String := String.ofList (List.replicate n c)

/- An integer in a format string. -/
def decimal (n : Int) : String := toString n

/- The format specifications `<n` and `>n`. -/
def alignLeft (n : Nat) (text : String) : String := text ++ times ' ' (n - text.length)

def alignRight (n : Nat) (text : String) : String := times ' ' (n - text.length) ++ text

/-- `summary.status.value.upper()`. -/
def WorkflowRunStatus.upper : WorkflowRunStatus → String
  | .running => "RUNNING"
  | .completed => "COMPLETED"
  | .failed => "FAILED"

/- From 1000 on it is the double nearest to the quotient, to three decimals; no sum over the
   events of a run comes near the largest double. -/
def formatDuration (milliseconds : Int) : String :=
  if milliseconds < 1000 then decimal milliseconds ++ "ms"
  else
    let thousandths := roundHalfEven (nearestDouble (milliseconds / 1000) * 1000)
    let decimals := decimal (thousandths % 1000)
    decimal (thousandths / 1000) ++ "." ++ times '0' (3 - decimals.length) ++ decimals ++ "s"

def eventDisplay : EventType → String × String
  | .workflowRunCreated => ("◇", "RUN CREATED")
  | .stepAttemptStarted => ("●", "ATTEMPT STARTED")
  | .stepRetryScheduled => ("↻", "RETRY SCHEDULED")
  | .stepCompleted => ("✓", "STEP COMPLETED")
  | .stepFailed => ("✕", "STEP FAILED")
  | .workflowRunCompleted => ("◆", "RUN COMPLETED")
  | .workflowRunFailed => ("✕", "RUN FAILED")

/- `text.split(separator, maxsplit=1)`, `none` where the separator is not in the text. -/
def splitOnce (separator : List Char) : List Char → Option (List Char × List Char)
  | [] => none
  | c :: rest => match (c :: rest).dropPrefix? separator with
    | some after => some ([], after)
    | none => (splitOnce separator rest).map fun parts => (c :: parts.1, parts.2)

def splitKey (detail : String) : Option (String × String) :=
  (splitOnce "; key=".toList detail.toList).map fun parts =>
    (String.ofList parts.1, String.ofList parts.2)

def timelineDetails (detail : Option String) (waitMs : Option Int) : List String :=
  let values := match waitMs with
    | some waitMs => ["wait " ++ formatDuration waitMs]
    | none => []
  match detail with
  | none => values
  | some detail =>
    if detail = "" then values
    else match splitKey detail with
      | some (message, key) => values ++ [message, "key  " ++ key]
      | none => match values with
        | [] => [detail]
        | value :: rest => (value ++ " · " ++ detail) :: rest

def boxTitle (title : String) (width : Nat) : String :=
  let label := "─ " ++ title ++ " "
  "╭" ++ label ++ times '─' (width - label.length - 2) ++ "╮"

def boxSeparator (width : Nat) : String := "├" ++ times '─' (width - 2) ++ "┤"

/-- The lines `_append_box_line` appends; `wrap` is `textwrap.wrap` with its indent. -/
def boxLines (wrap : String → Nat → List String) (width : Nat) (content : String) : List String :=
  let contentWidth := width - 4
  let wrapped := if content.length ≤ contentWidth then [content] else wrap content contentWidth
  (if wrapped = [] then [""] else wrapped).map fun part => "│ " ++ alignLeft contentWidth part ++ " │"

def statusContent (summary : TimelineSummary) : String :=
  let symbol := if summary.status = .completed then "✓" else "●"
  "STATUS   " ++ symbol ++ " " ++ alignLeft 9 summary.status.upper ++ " " ++
    "DURATION  " ++ alignLeft 8 (formatDuration summary.durationMs) ++ " " ++
    "ATTEMPTS  " ++ alignLeft 3 (decimal summary.attempts) ++
    "  RETRIES  " ++ alignLeft 3 (decimal summary.retries) ++ "  " ++
    "PLANNED WAIT  " ++ formatDuration summary.plannedWaitMs

def ownerText (entry : TimelineEntry) : String :=
  match entry.workerId with
  | none => "—"
  | some workerId => workerId ++ " · f" ++ (entry.fenceToken.map decimal).getD "None"

def attemptText (entry : TimelineEntry) : String :=
  match entry.attempt with
  | none => "—"
  | some attempt => "#" ++ decimal attempt

/-- `entry.step_id or 'run'`. -/
def stepText (entry : TimelineEntry) : String :=
  match entry.stepId with
  | none => "run"
  | some stepId => if stepId = "" then "run" else stepId

def headerContent (entry : TimelineEntry) : String :=
  "+" ++ alignLeft 9 (formatDuration entry.elapsedMs) ++ " " ++
    alignRight 2 (decimal entry.sequence) ++ "  " ++ (eventDisplay entry.eventType).1 ++ " " ++
    alignLeft 19 (eventDisplay entry.eventType).2 ++ " " ++ alignLeft 19 (stepText entry) ++ " " ++
    alignLeft 5 (attemptText entry) ++ " " ++ ownerText entry

def detailContents (entry : TimelineEntry) : List String :=
  (timelineDetails entry.detail entry.waitMs).mapIdx fun index detail =>
    "             " ++ (if index = 0 then "↳" else " ") ++ " " ++ detail

def timelineLines (wrap : String → Nat → List String) (timeline : WorkflowRunTimeline) (width : Nat) :
    List String :=
  [boxTitle "WORKFLOW RUN" width] ++
  boxLines wrap width ("ID       " ++ timeline.runId) ++
  boxLines wrap width (statusContent timeline.summary) ++
  [boxSeparator width] ++
  boxLines wrap width
    "TIME       #   EVENT                 STEP                TRY   WORKER · FENCE" ++
  [boxSeparator width] ++
  (timeline.entries.flatMap fun entry =>
    boxLines wrap width (headerContent entry) ++ (detailContents entry).flatMap (boxLines wrap width)) ++
  ["╰" ++ times '─' (width - 2) ++ "╯"]

/-- The width the lines are made for; `columns` are the terminal's. -/
def boxWidth (columns : Int) (width : Option Int) : Nat :=
  (max 72 (width.getD (columns - 1))).toNat

def formatTimeline (wrap : String → Nat → List String) (columns : Int)
    (timeline : WorkflowRunTimeline) (width : Option Int) : String :=
  "\n".intercalate (timelineLines wrap timeline (boxWidth columns width))

/- What the code relies on of `textwrap.wrap`. -/
def WrapsWell (wrap : String → Nat → List String) : Prop :=
  ∀ content width, 0 < width → ∀ piece ∈ wrap content width,
    piece.length ≤ width ∧ Unbroken piece.toList

/-- Everything that is put in the box, in order. -/
def timelineContents (timeline : WorkflowRunTimeline) : List String :=
  ["ID       " ++ timeline.runId, statusContent timeline.summary,
    "TIME       #   EVENT                 STEP                TRY   WORKER · FENCE"] ++
  timeline.entries.flatMap fun entry => headerContent entry :: detailContents entry

section Texts
variable {c : Char} {n : Nat} {text : String}

@[simp] theorem times_length : (times c n).length = n := by
  simp [times]

theorem times_unbroken (plain : c ∉ lineBreaks) (n : Nat) : Unbroken (times c n).toList := by
  simpa [times] using unbroken_replicate plain n

@[simp] theorem align_left_length : (alignLeft n text).length = max n text.length := by
  simp [alignLeft]
  omega

@[simp] theorem align_right_length : (alignRight n text).length = max n text.length := by
  simp [alignRight]
  omega

@[simp] theorem align_left_unbroken : Unbroken (alignLeft n text).toList ↔ Unbroken text.toList := by
  simp [alignLeft, times_unbroken (c := ' ') (by decide)]

@[simp] theorem align_right_unbroken : Unbroken (alignRight n text).toList ↔ Unbroken text.toList := by
  simp [alignRight, times_unbroken (c := ' ') (by decide)]

theorem nat_unbroken (n : Nat) : Unbroken (toString n).toList := by
  intro c member isBreak
  rw [Nat.toString_eq_ofList_toDigits, String.toList_ofList] at member
  have digit : ∀ b ∈ lineBreaks, b.isDigit = false := by simp [lineBreaks, Char.isDigit]
  have isDigit := Nat.isDigit_of_mem_toDigits (by decide) (by decide) member
  rw [digit c isBreak] at isDigit
  cases isDigit

theorem int_unbroken (n : Int) : Unbroken (decimal n).toList := by
  cases n with
  | ofNat n => exact nat_unbroken n
  | negSucc n =>
    change Unbroken ("-" ++ toString (n + 1)).toList
    rw [String.toList_append, unbroken_append]
    exact ⟨by simp [Unbroken, lineBreaks], nat_unbroken _⟩

theorem duration_unbroken (milliseconds : Int) : Unbroken (formatDuration milliseconds).toList := by
  unfold formatDuration
  split
  · rw [String.toList_append, unbroken_append]
    exact ⟨int_unbroken _, by simp [Unbroken, lineBreaks]⟩
  · simp only [String.toList_append, unbroken_append]
    refine ⟨⟨⟨⟨int_unbroken _, ?_⟩, times_unbroken (by decide) _⟩, int_unbroken _⟩, ?_⟩
    · simp [Unbroken, lineBreaks]
    · simp [Unbroken, lineBreaks]

end Texts

section Box
variable {wrap : String → Nat → List String} {width : Nat} {content : String}
  {timeline : WorkflowRunTimeline}

theorem box_line_shape {part : String} (room : 4 ≤ width) (fits : part.length ≤ width - 4) :
    ("│ " ++ alignLeft (width - 4) part ++ " │").length = width ∧
      EndsPlain ("│ " ++ alignLeft (width - 4) part ++ " │").toList := by
  refine ⟨?_, ("│ " ++ alignLeft (width - 4) part ++ " ").toList, '│', by simp, by decide⟩
  have left : "│ ".length = 2 := rfl
  have right : " │".length = 2 := rfl
  simp only [String.length_append, align_left_length, left, right]
  omega

/-- Short content is one part, longer content the pieces it is wrapped to. -/
theorem mem_box_lines {line : String} : line ∈ boxLines wrap width content ↔
    ∃ part, "│ " ++ alignLeft (width - 4) part ++ " │" = line ∧
      if content.length ≤ width - 4 then part = content
      else part ∈ wrap content (width - 4) ∨ wrap content (width - 4) = [] ∧ part = "" := by
  simp only [boxLines, List.mem_map]
  refine exists_congr fun part => and_comm.trans (and_congr_right fun _ => ?_)
  by_cases short : content.length ≤ width - 4
  · simp [short]
  · by_cases none : wrap content (width - 4) = [] <;> simp [short, none]

theorem box_lines_aligned (wraps : WrapsWell wrap) (room : 4 < width) :
    ∀ line ∈ boxLines wrap width content, line.length = width ∧ EndsPlain line.toList := by
  intro line member
  obtain ⟨part, rfl, origin⟩ := mem_box_lines.mp member
  apply box_line_shape (le_of_lt room)
  split at origin
  · rwa [origin]
  · rcases origin with piece | ⟨_, rfl⟩
    · exact (wraps content (width - 4) (by omega) part piece).1
    · simp

/-- Only content that is not wrapped brings a break into the box. -/
theorem box_lines_unbroken_iff (wraps : WrapsWell wrap) (room : 4 < width) :
    (∀ line ∈ boxLines wrap width content, Unbroken line.toList) ↔
      (content.length ≤ width - 4 → Unbroken content.toList) := by
  have edges (part : String) : Unbroken ("│ " ++ alignLeft (width - 4) part ++ " │").toList ↔
      Unbroken part.toList := by
    have left : Unbroken "│ ".toList := by simp [Unbroken, lineBreaks]
    have right : Unbroken " │".toList := by simp [Unbroken, lineBreaks]
    rw [String.toList_append, String.toList_append, unbroken_append, unbroken_append,
      align_left_unbroken, and_iff_left right, and_iff_right left]
  constructor
  · intro all short
    exact (edges content).mp (all _ (mem_box_lines.mpr ⟨content, rfl, by rw [if_pos short]⟩))
  · intro unbroken line member
    obtain ⟨part, rfl, origin⟩ := mem_box_lines.mp member
    rw [edges]
    split at origin
    · rename_i short
      exact origin ▸ unbroken short
    · rcases origin with piece | ⟨_, rfl⟩
      · exact (wraps content (width - 4) (by omega) part piece).2
      · simp [Unbroken]

theorem timeline_lines_forall {P : String → Prop} :
    (∀ line ∈ timelineLines wrap timeline width, P line) ↔
      (P (boxTitle "WORKFLOW RUN" width) ∧ P (boxSeparator width) ∧
        P ("╰" ++ times '─' (width - 2) ++ "╯")) ∧
      ∀ content ∈ timelineContents timeline, ∀ line ∈ boxLines wrap width content, P line := by
  simp only [timelineLines, timelineContents, List.forall_mem_append, List.forall_mem_cons,
    List.forall_mem_flatMap, List.not_mem_nil, false_implies, implies_true, and_true]
  constructor
  · rintro ⟨⟨⟨⟨⟨⟨⟨title, id⟩, status⟩, separator⟩, columns⟩, _⟩, entries⟩, bottom⟩
    exact ⟨⟨title, separator, bottom⟩, ⟨id, status, columns⟩, entries⟩
  · rintro ⟨⟨title, separator, bottom⟩, ⟨id, status, columns⟩, entries⟩
    exact ⟨⟨⟨⟨⟨⟨⟨title, id⟩, status⟩, separator⟩, columns⟩, separator⟩, entries⟩, bottom⟩

theorem frame_shape (left label right : String) (one : left.length = 1) (plain : Unbroken left.toList)
    (plain' : Unbroken label.toList) (edge : right = "╮" ∨ right = "┤" ∨ right = "╯")
    (room : label.length + 2 ≤ width) :
    (left ++ label ++ times '─' (width - label.length - 2) ++ right).length = width ∧
      EndsPlain (left ++ label ++ times '─' (width - label.length - 2) ++ right).toList ∧
      Unbroken (left ++ label ++ times '─' (width - label.length - 2) ++ right).toList := by
  have shape : ∃ c, right.toList = [c] ∧ c ∉ lineBreaks := by
    rcases edge with rfl | rfl | rfl
    · exact ⟨'╮', by simp, by decide⟩
    · exact ⟨'┤', by simp, by decide⟩
    · exact ⟨'╯', by simp, by decide⟩
  obtain ⟨c, last, plainEdge⟩ := shape
  have one' : right.length = 1 := by rw [← String.length_toList, last, List.length_singleton]
  refine ⟨?_, ⟨(left ++ label ++ times '─' (width - label.length - 2)).toList, c, ?_, plainEdge⟩, ?_⟩
  · simp only [String.length_append, one, one', times_length]
    omega
  · rw [String.toList_append, last]
  · simp only [String.toList_append, unbroken_append, last]
    refine ⟨⟨⟨plain, plain'⟩, times_unbroken (by decide) _⟩, ?_⟩
    intro d member
    rwa [List.mem_singleton.mp member]

theorem title_shape (room : 72 ≤ width) : (boxTitle "WORKFLOW RUN" width).length = width ∧
    EndsPlain (boxTitle "WORKFLOW RUN" width).toList ∧
    Unbroken (boxTitle "WORKFLOW RUN" width).toList := by
  have label : ("─ " ++ "WORKFLOW RUN" ++ " ").length = 15 := rfl
  exact frame_shape "╭" ("─ " ++ "WORKFLOW RUN" ++ " ") "╮" rfl (by simp [Unbroken, lineBreaks])
    (by simp [Unbroken, lineBreaks]) (.inl rfl) (by omega)

theorem separator_shape (room : 72 ≤ width) : (boxSeparator width).length = width ∧
    EndsPlain (boxSeparator width).toList ∧ Unbroken (boxSeparator width).toList := by
  have narrow : "".length + 2 ≤ width := by
    simp
    omega
  have shape := frame_shape "├" "" "┤" rfl (by simp [Unbroken, lineBreaks]) (by simp [Unbroken])
    (.inr (.inl rfl)) narrow
  simpa [boxSeparator] using shape

theorem bottom_shape (room : 72 ≤ width) : ("╰" ++ times '─' (width - 2) ++ "╯").length = width ∧
    EndsPlain ("╰" ++ times '─' (width - 2) ++ "╯").toList ∧
    Unbroken ("╰" ++ times '─' (width - 2) ++ "╯").toList := by
  have narrow : "".length + 2 ≤ width := by
    simp
    omega
  have shape := frame_shape "╰" "" "╯" rfl (by simp [Unbroken, lineBreaks]) (by simp [Unbroken])
    (.inr (.inr rfl)) narrow
  simpa using shape

/-- Every line made is as wide as the box, and so is every line read back unless a break is in
    content that is not wrapped. -/
theorem timeline_lines_iff (wraps : WrapsWell wrap) (room : 72 ≤ width) :
    (∀ line ∈ splitlines ("\n".intercalate (timelineLines wrap timeline width)).toList,
      line.length = width) ↔
    ∀ content ∈ timelineContents timeline,
      content.length ≤ width - 4 → Unbroken content.toList := by
  have title := title_shape room
  have separator := separator_shape room
  have bottom := bottom_shape room
  have aligned : ∀ line ∈ timelineLines wrap timeline width,
      line.length = width ∧ EndsPlain line.toList :=
    timeline_lines_forall.mpr ⟨⟨⟨title.1, title.2.1⟩, ⟨separator.1, separator.2.1⟩,
      bottom.1, bottom.2.1⟩, fun content _ => box_lines_aligned wraps (by omega)⟩
  have joined : ("\n".intercalate (timelineLines wrap timeline width)).toList =
      joinLines ((timelineLines wrap timeline width).map String.toList) := by
    rw [String.toList_intercalate]
    rfl
  have some : 0 < width := by omega
  have whole := splitlines_aligned_iff some
    (List.forall_mem_map.mpr fun line member => (String.length_toList).trans (aligned line member).1)
    (List.forall_mem_map.mpr fun line member => (aligned line member).2)
  rw [joined, whole, List.forall_mem_map, timeline_lines_forall,
    and_iff_right ⟨title.2.2, separator.2.2, bottom.2.2⟩]
  exact forall₂_congr fun content _ => box_lines_unbroken_iff wraps (by omega)

end Box

/-- The columns the header of an entry takes. -/
def headerColumns (entry : TimelineEntry) : Nat :=
  28 + max 9 (formatDuration entry.elapsedMs).length + max 2 (decimal entry.sequence).length +
    max 19 (stepText entry).length + max 5 (attemptText entry).length + (ownerText entry).length

/-- The texts of a detail, each with the columns that come before it on its line. -/
def detailTexts (entry : TimelineEntry) : List (Nat × String) :=
  match entry.detail with
  | none => []
  | some detail => match splitKey detail with
    | some (message, key) => [(0, message), (5, key)]
    | none =>
      [((entry.waitMs.map fun waitMs => ("wait " ++ formatDuration waitMs ++ " · ").length).getD 0, detail)]

/- No text from outside has a break on a line that is short enough not to be wrapped. -/
structure BreaksWrapped (width : Nat) (timeline : WorkflowRunTimeline) : Prop where
  runId : 9 + timeline.runId.length ≤ width - 4 → Unbroken timeline.runId.toList
  headers : ∀ entry ∈ timeline.entries, headerColumns entry ≤ width - 4 →
    Unbroken (entry.stepId.getD "").toList ∧ Unbroken (entry.workerId.getD "").toList
  details : ∀ entry ∈ timeline.entries, ∀ text ∈ detailTexts entry,
    15 + text.1 + text.2.length ≤ width - 4 → Unbroken text.2.toList

section Contents
variable {entry : TimelineEntry} {room : Nat}

theorem header_length : (headerContent entry).length = headerColumns entry := by
  have display : (eventDisplay entry.eventType).1.length = 1 ∧
      (eventDisplay entry.eventType).2.length ≤ 19 := by
    cases entry.eventType <;> exact ⟨rfl, by simp [eventDisplay, ← String.length_toList]⟩
  have plus : "+".length = 1 := rfl
  have blank : " ".length = 1 := rfl
  have blanks : "  ".length = 2 := rfl
  unfold headerContent headerColumns
  simp only [String.length_append, align_left_length, align_right_length, plus, blank, blanks,
    display.1]
  omega

theorem step_text_unbroken :
    Unbroken (stepText entry).toList ↔ Unbroken (entry.stepId.getD "").toList := by
  unfold stepText
  split
  · rename_i none
    simp [none, Unbroken, lineBreaks]
  · rename_i stepId named
    split
    · rename_i empty
      simp [named, empty, Unbroken, lineBreaks]
    · simp [named]

theorem owner_text_unbroken :
    Unbroken (ownerText entry).toList ↔ Unbroken (entry.workerId.getD "").toList := by
  unfold ownerText
  split
  · rename_i none
    simp [none, Unbroken, lineBreaks]
  · rename_i workerId named
    have fence : Unbroken ((entry.fenceToken.map decimal).getD "None").toList := by
      cases entry.fenceToken with
      | none => simp [Unbroken, lineBreaks]
      | some fence => exact int_unbroken fence
    have mark : Unbroken " · f".toList := by simp [Unbroken, lineBreaks]
    rw [String.toList_append, String.toList_append, unbroken_append, unbroken_append,
      and_iff_left fence, and_iff_left mark, named]
    rfl

theorem header_unbroken : Unbroken (headerContent entry).toList ↔
    Unbroken (entry.stepId.getD "").toList ∧ Unbroken (entry.workerId.getD "").toList := by
  have display : Unbroken (eventDisplay entry.eventType).1.toList ∧
      Unbroken (eventDisplay entry.eventType).2.toList := by
    cases entry.eventType <;> simp [eventDisplay, Unbroken, lineBreaks]
  have attempt : Unbroken (attemptText entry).toList := by
    unfold attemptText
    split
    · simp [Unbroken, lineBreaks]
    · rw [String.toList_append, unbroken_append]
      exact ⟨by simp [Unbroken, lineBreaks], int_unbroken _⟩
  have plus : Unbroken "+".toList := by simp [Unbroken, lineBreaks]
  have blank : Unbroken " ".toList := by simp [Unbroken, lineBreaks]
  have blanks : Unbroken "  ".toList := by simp [Unbroken, lineBreaks]
  unfold headerContent
  simp only [String.toList_append, unbroken_append, align_left_unbroken, align_right_unbroken, plus,
    blank, blanks, display, attempt, duration_unbroken, int_unbroken, step_text_unbroken,
    owner_text_unbroken, true_and, and_true]

theorem status_unbroken (summary : TimelineSummary) : Unbroken (statusContent summary).toList := by
  have status : Unbroken summary.status.upper.toList := by
    cases summary.status <;> simp [WorkflowRunStatus.upper, Unbroken, lineBreaks]
  have symbol : Unbroken (if summary.status = .completed then "✓" else "●").toList := by
    split <;> simp [Unbroken, lineBreaks]
  have blank : Unbroken " ".toList := by simp [Unbroken, lineBreaks]
  have blanks : Unbroken "  ".toList := by simp [Unbroken, lineBreaks]
  have label : Unbroken "STATUS   ".toList := by simp [Unbroken, lineBreaks]
  have duration : Unbroken "DURATION  ".toList := by simp [Unbroken, lineBreaks]
  have attempts : Unbroken "ATTEMPTS  ".toList := by simp [Unbroken, lineBreaks]
  have retries : Unbroken "  RETRIES  ".toList := by simp [Unbroken, lineBreaks]
  have planned : Unbroken "PLANNED WAIT  ".toList := by simp [Unbroken, lineBreaks]
  unfold statusContent
  simp only [String.toList_append, unbroken_append, align_left_unbroken, status, symbol,
    blank, blanks, label, duration, attempts, retries, planned, duration_unbroken, int_unbroken, true_and]

theorem detail_contents_forall :
    (∀ content ∈ detailContents entry, content.length ≤ room → Unbroken content.toList) ↔
      ∀ detail ∈ timelineDetails entry.detail entry.waitMs,
        15 + detail.length ≤ room → Unbroken detail.toList := by
  have line (index : Nat) (detail : String) : let content :=
      "             " ++ (if index = 0 then "↳" else " ") ++ " " ++ detail
      content.length = 15 + detail.length ∧ (Unbroken content.toList ↔ Unbroken detail.toList) := by
    have indent : "             ".length = 13 ∧ Unbroken "             ".toList :=
      ⟨rfl, by simp [Unbroken, lineBreaks]⟩
    have branch : (if index = 0 then "↳" else " ").length = 1 ∧
        Unbroken (if index = 0 then "↳" else " ").toList := by
      split <;> exact ⟨rfl, by simp [Unbroken, lineBreaks]⟩
    have blank : " ".length = 1 ∧ Unbroken " ".toList := ⟨rfl, by simp [Unbroken, lineBreaks]⟩
    constructor
    · simp only [String.length_append, indent, branch, blank]
    · simp only [String.toList_append, unbroken_append, indent, branch, blank, true_and]
  simp only [detailContents, List.mem_mapIdx]
  constructor
  · intro all detail member short
    obtain ⟨index, inside, rfl⟩ := List.mem_iff_getElem.mp member
    obtain ⟨length, unbroken⟩ := line index _
    exact unbroken.mp (all _ ⟨index, inside, rfl⟩ (length.trans_le short))
  · rintro all content ⟨index, inside, rfl⟩ short
    obtain ⟨length, unbroken⟩ := line index (timelineDetails entry.detail entry.waitMs)[index]
    exact unbroken.mpr (all _ (List.getElem_mem inside) (length.symm.trans_le short))

theorem detail_texts_forall :
    (∀ detail ∈ timelineDetails entry.detail entry.waitMs,
        15 + detail.length ≤ room → Unbroken detail.toList) ↔
      ∀ text ∈ detailTexts entry, 15 + text.1 + text.2.length ≤ room → Unbroken text.2.toList := by
  have wait (waitMs : Int) : Unbroken ("wait " ++ formatDuration waitMs).toList := by
    rw [String.toList_append, unbroken_append]
    exact ⟨by simp [Unbroken, lineBreaks], duration_unbroken waitMs⟩
  have key (text : String) : ("key  " ++ text).length = 5 + text.length ∧
      (Unbroken ("key  " ++ text).toList ↔ Unbroken text.toList) := by
    have label : Unbroken "key  ".toList := by simp [Unbroken, lineBreaks]
    rw [String.length_append, String.toList_append, unbroken_append, and_iff_right label]
    exact ⟨rfl, Iff.rfl⟩
  have both (waitMs : Int) (detail : String) :
      Unbroken ("wait " ++ formatDuration waitMs ++ " · " ++ detail).toList ↔ Unbroken detail.toList := by
    have dot : Unbroken " · ".toList := by simp [Unbroken, lineBreaks]
    rw [String.toList_append, String.toList_append, unbroken_append, unbroken_append,
      and_iff_right ⟨wait waitMs, dot⟩]
  unfold timelineDetails detailTexts
  cases entry.detail with
  | none =>
    cases entry.waitMs with
    | none => simp
    | some waitMs =>
      simp only [List.forall_mem_singleton, List.not_mem_nil, false_implies, implies_true, wait]
  | some detail =>
    by_cases empty : detail = ""
    · subst empty
      have none : splitKey "" = none := rfl
      have nothing : Unbroken "".toList := by simp [Unbroken]
      cases entry.waitMs with
      | none => simp only [if_pos, none, List.forall_mem_singleton, List.not_mem_nil, false_implies,
          implies_true, nothing]
      | some waitMs =>
        simp only [if_pos, none, List.forall_mem_singleton, implies_true, wait, nothing]
    · cases cut : splitKey detail with
      | some parts =>
        cases entry.waitMs <;>
          simp only [cut, if_neg empty, List.nil_append, List.cons_append, List.forall_mem_cons,
            List.not_mem_nil, false_implies, implies_true, and_true, true_and, wait, key,
            Nat.add_assoc, Nat.zero_add]
      | none =>
        cases entry.waitMs with
        | none => simp [cut, empty]
        | some waitMs =>
          simp only [cut, if_neg empty, List.forall_mem_singleton, both, Option.map_some, Option.getD_some,
            String.length_append, Nat.add_assoc]

end Contents

theorem contents_iff {timeline : WorkflowRunTimeline} {width : Nat} :
    (∀ content ∈ timelineContents timeline, content.length ≤ width - 4 → Unbroken content.toList) ↔
      BreaksWrapped width timeline := by
  have label : "ID       ".length = 9 ∧ Unbroken "ID       ".toList :=
    ⟨rfl, by simp [Unbroken, lineBreaks]⟩
  have columns : Unbroken
      "TIME       #   EVENT                 STEP                TRY   WORKER · FENCE".toList := by
    simp [Unbroken, lineBreaks]
  simp only [timelineContents, List.forall_mem_append, List.forall_mem_cons, List.forall_mem_flatMap,
    List.not_mem_nil, false_implies, implies_true, and_true, status_unbroken, columns, header_length,
    header_unbroken, detail_contents_forall, detail_texts_forall, String.length_append,
    String.toList_append, unbroken_append, label, true_and]
  constructor
  · rintro ⟨runId, entries⟩
    exact ⟨runId, fun entry member => (entries entry member).1, fun entry member => (entries entry member).2⟩
  · rintro ⟨runId, headers, details⟩
    exact ⟨runId, fun entry member => ⟨headers entry member, details entry member⟩⟩

section Format
variable {wrap : String → Nat → List String} {columns : Int} {width : Option Int}
  {timeline : WorkflowRunTimeline}

theorem box_width : (boxWidth columns width : Int) = max 72 (width.getD (columns - 1)) := by
  unfold boxWidth
  omega

theorem format_aligned_iff (wraps : WrapsWell wrap) :
    (∀ line ∈ splitlines (formatTimeline wrap columns timeline width).toList,
      (line.length : Int) = max 72 (width.getD (columns - 1))) ↔
    BreaksWrapped (boxWidth columns width) timeline := by
  have room : 72 ≤ boxWidth columns width := by
    unfold boxWidth
    omega
  rw [← contents_iff, ← timeline_lines_iff wraps room, ← box_width]
  exact forall₂_congr fun line _ => Nat.cast_inj

end Format

/-- The box is aligned exactly when every break from outside is on a line that is wrapped. -/
theorem timeline_aligned_iff (wrap : String → Nat → List String) (wraps : WrapsWell wrap)
    (columns : Int) (timeline : WorkflowRunTimeline) (width : Option Int) :
    (∀ line ∈ splitlines (formatTimeline wrap columns timeline width).toList,
      (line.length : Int) = max 72 (width.getD (columns - 1))) ↔
    BreaksWrapped (boxWidth columns width) timeline :=
  format_aligned_iff wraps

section Example

/- The whitespace that `textwrap.wrap` blanks, and the breaks that it is assumed to. -/
def blank (c : Char) : Char := if c ∈ lineBreaks ∨ c = '\t' then ' ' else c

def trimRight (line : List Char) : List Char := line.rdropWhile fun c => c = ' '

/- The lines that chunks of blanks and of other characters are put on, as many on each as it
   has room for; a line after the first is indented and begins with no other blanks. -/
def fillLines (width : Nat) : List Char → List (List Char) → List (List Char)
  | line, [] => [trimRight line]
  | line, chunk :: rest =>
    if line.length + chunk.length ≤ width then fillLines width (line ++ chunk) rest
    else trimRight line :: fillLines width ([' ', ' '] ++ trimRight chunk) rest

/-- `textwrap.wrap(content, width, subsequent_indent="  ")` of a text without tabs and hyphens,
    each of whose words has room on a line; a longer word is cut off. -/
def wrapWords (content : String) (width : Nat) : List String :=
  let chunks := (content.toList.map blank).splitBy fun a b => (a == ' ') == (b == ' ')
  (fillLines width [] chunks).map fun line => String.ofList (line.take width)

example : wrapWords "   ↳ denied:\nthe card of this customer  is blocked" 24 =
    ["   ↳ denied: the card of", "  this customer  is", "  blocked"] := by
  decide +kernel

theorem blank_unbroken (text : List Char) : Unbroken (text.map blank) := by
  intro c member
  obtain ⟨d, _, rfl⟩ := List.mem_map.mp member
  unfold blank
  split
  · decide
  · rename_i plain
    exact fun isBreak => plain (.inl isBreak)

theorem trim_right_unbroken {line : List Char} (plain : Unbroken line) : Unbroken (trimRight line) :=
  fun c member => plain c ((List.rdropWhile_prefix _ _).subset member)

theorem fill_lines_unbroken {width : Nat} {line : List Char} {chunks : List (List Char)}
    (plain : Unbroken line) (chunked : ∀ chunk ∈ chunks, Unbroken chunk) :
    ∀ piece ∈ fillLines width line chunks, Unbroken piece := by
  induction chunks generalizing line with
  | nil =>
    intro piece member
    rw [List.mem_singleton.mp member]
    exact trim_right_unbroken plain
  | cons chunk rest ih =>
    obtain ⟨here, later⟩ := List.forall_mem_cons.mp chunked
    unfold fillLines
    split
    · exact ih (unbroken_append.mpr ⟨plain, here⟩) later
    · have indent : Unbroken [' ', ' '] := by simp [Unbroken, lineBreaks]
      refine List.forall_mem_cons.mpr ⟨trim_right_unbroken plain, ?_⟩
      exact ih (unbroken_append.mpr ⟨indent, trim_right_unbroken here⟩) later

theorem wrap_words_wraps_well : WrapsWell wrapWords := by
  intro content width _ piece member
  obtain ⟨line, filled, rfl⟩ := List.mem_map.mp member
  have chunked : ∀ chunk ∈ (content.toList.map blank).splitBy fun a b => (a == ' ') == (b == ' '),
      Unbroken chunk := by
    intro chunk inside c character
    refine blank_unbroken content.toList c ?_
    rw [← List.flatten_splitBy (fun a b => (a == ' ') == (b == ' ')) (content.toList.map blank)]
    exact List.mem_flatten_of_mem inside character
  have plain := fill_lines_unbroken (by simp [Unbroken]) chunked line filled
  refine ⟨by simp, fun c inside => plain c ?_⟩
  rw [String.toList_ofList] at inside
  exact List.mem_of_mem_take inside

/- The tool has denied the charge, and the text of its answer is copied into the error. -/
def deniedHistory (error : String) : List WorkflowRunEvent :=
  chargedHistory.take 2 ++
  [{ runId := "r", sequence := 3, eventType := .stepFailed, schemaVersion := 1,
     stepId := some "charge", attempt := some 1, occurredAt := 2,
     payload := some (.stepFailed { error := error }) },
   { runId := "r", sequence := 4, eventType := .workflowRunFailed, schemaVersion := 1,
     stepId := some "charge", attempt := none, occurredAt := 2,
     payload := some (.workflowRunFailed { stepId := "charge", error := error }) }]

def denial : String := "tool returned HTTP 403: denied\nby policy"

theorem denied_detail : ∃ timeline,
    buildTimeline (fun _ => "") (deniedHistory denial) = .ok timeline ∧
    ∃ entry ∈ timeline.entries, entry.waitMs = none ∧
      entry.detail = some denial :=
  ⟨_, rfl, _, List.mem_cons_of_mem _ (List.mem_cons_of_mem _ List.mem_cons_self), rfl, rfl⟩

theorem denied_box_broken : ∃ timeline,
    buildTimeline (fun _ => "") (deniedHistory denial) = .ok timeline ∧
    WrapsWell wrapWords ∧
    ¬ ∀ line ∈ splitlines (formatTimeline wrapWords 120 timeline (some 120)).toList,
      (line.length : Int) = max 72 120 := by
  obtain ⟨timeline, built, entry, member, wait, detail⟩ := denied_detail
  refine ⟨timeline, built, wrap_words_wraps_well, fun aligned => ?_⟩
  have wrapped : BreaksWrapped (boxWidth 120 (some 120)) timeline :=
    (format_aligned_iff wrap_words_wraps_well).mp aligned
  have whole : splitKey denial = none := rfl
  have text : detailTexts entry = [(0, denial)] := by
    simp only [detailTexts, detail, whole, wait]
    rfl
  have unbroken := wrapped.details entry member _ (text ▸ List.mem_singleton_self _) (by decide)
  exact unbroken '\n' (by simp [denial]) (by simp [lineBreaks])

/- Two lines as well, too long for one line of a box of 80 columns. -/
def longDenial : String :=
  "tool returned HTTP 403: denied by policy 7 of the bank:\nthe card of this customer is blocked"

theorem long_denial_texts : ∃ timeline,
    buildTimeline (fun _ => "") (deniedHistory longDenial) = .ok timeline ∧ timeline.runId = "r" ∧
    timeline.entries.map (fun entry => (entry.stepId.getD "", entry.workerId.getD "", detailTexts entry)) =
      [("", "", [(0, "2 materialized steps persisted")]),
       ("charge", "worker-1", [(0, "intent persisted"), (5, "r:charge")]),
       ("charge", "", [(0, longDenial)]), ("charge", "", [(0, longDenial)])] :=
  ⟨_, rfl, rfl, rfl⟩

/-- The break in the error is on a line that is wrapped. -/
theorem long_denial_box_aligned : ∃ timeline,
    buildTimeline (fun _ => "") (deniedHistory longDenial) = .ok timeline ∧
    ∀ line ∈ splitlines (formatTimeline wrapWords 120 timeline (some 80)).toList,
      (line.length : Int) = max 72 80 := by
  obtain ⟨timeline, built, runId, texts⟩ := long_denial_texts
  have inside : ∀ entry ∈ timeline.entries, _ := fun entry member =>
    List.mem_map_of_mem (f := fun entry => (entry.stepId.getD "", entry.workerId.getD "", detailTexts entry))
      member
  simp only [texts, List.mem_cons, List.not_mem_nil, or_false, Prod.mk.injEq] at inside
  refine ⟨timeline, built,
    (timeline_aligned_iff wrapWords wrap_words_wraps_well 120 timeline (some 80)).mpr ⟨?_, ?_, ?_⟩⟩
  · intro _
    rw [runId]
    simp [Unbroken, lineBreaks]
  · intro entry member _
    rcases inside entry member with ⟨step, worker, _⟩ | ⟨step, worker, _⟩ | ⟨step, worker, _⟩ |
        ⟨step, worker, _⟩ <;>
      simp [step, worker, Unbroken, lineBreaks]
  · have long : ¬ 15 + 0 + longDenial.length ≤ boxWidth 120 (some 80) - 4 := by decide +kernel
    intro entry member text present short
    rcases inside entry member with ⟨_, _, details⟩ | ⟨_, _, details⟩ | ⟨_, _, details⟩ |
        ⟨_, _, details⟩ <;>
      simp only [details, List.mem_cons, List.not_mem_nil, or_false] at present
    · simp [present, Unbroken, lineBreaks]
    · rcases present with rfl | rfl <;> simp [Unbroken, lineBreaks]
    · rw [present] at short
      exact absurd short long
    · rw [present] at short
      exact absurd short long

end Example

end Crashsafe

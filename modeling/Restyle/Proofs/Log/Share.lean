import Mathlib.Data.List.Induction
import Restyle.Log.Session

/-!
# The share of a file in the log

While a file is at work, an event is handed to the service or dropped, and which of the two depends
on all that came before it. `handed` lists what is handed over along a run. The run does no more
than to give those events to the sink, as far as the service accepts them, and to count them
(`dispatchAll_eq`). A sink in memory then holds just these (`kept_dispatchAll`).
-/

namespace Restyle.Log

def WorkFile.counted (n : Nat) (file : WorkFile) : WorkFile := { file with logged := file.logged + n }

namespace Session
variable {s : Session} {e : Event} {file : Option WorkFile} {events before after : List Event}

def dispatchAll (s : Session) (events : List Event) : Session := events.foldl dispatch s

/-- The events that are handed to the service when these are logged in their order. -/
def handed : Session → List Event → List Event
  | _, [] => []
  | s, e :: rest => (if s.admits e then [e] else []) ++ (s.dispatch e).handed rest

def recordAll (s : Session) (events : List Event) : Session := events.foldl record s

/-- What the service gives to its sink of the events that it is handed. -/
def accepted (s : Session) (events : List Event) : List Event :=
  (events.filter (s.service.accepts ·.level)).map s.tag

def withFile (s : Session) (file : Option WorkFile) : Session := { s with file }

/-! ### The sink -/

/-- The sink adds to what is written. It neither looks at the file at work nor changes it. -/
theorem exists_record (s : Session) (e : Event) : ∃ kept out err, ∀ file,
    (s.withFile file).record e = { s with file, kept, out, err } := by
  have write : ∀ line, ∃ kept out err, ∀ file,
      (s.withFile file).writeLine e.level line = { s with file, kept, out, err } := by
    intro line
    by_cases severe : e.level = .error
    · exact ⟨s.kept, s.out, s.err.push line, fun file => if_pos severe⟩
    · exact ⟨s.kept, s.out.push line, s.err, fun file => if_neg severe⟩
  have same : ∃ kept out err, ∀ file, s.withFile file = { s with file, kept, out, err } :=
    ⟨s.kept, s.out, s.err, fun file => rfl⟩
  unfold record
  cases sink : s.service.sink with
  | memory => exact ⟨s.kept.push e, s.out, s.err, fun file => by simp only [withFile, sink]⟩
  | silent => simpa only [withFile, sink] using same
  | console level =>
    simp only [withFile, sink]
    split
    · exact write e.format
    · exact same
  | structured level =>
    simp only [withFile, sink]
    split
    · exact write (e.toJson s.timestamp)
    · exact same

theorem exists_recordAll (s : Session) (events : List Event) : ∃ kept out err, ∀ file,
    (s.withFile file).recordAll events = { s with file, kept, out, err } := by
  induction events generalizing s with
  | nil => exact ⟨s.kept, s.out, s.err, fun file => rfl⟩
  | cons e rest ih =>
    obtain ⟨kept, out, err, first⟩ := exists_record s e
    obtain ⟨kept', out', err', more⟩ := ih { s with kept, out, err }
    refine ⟨kept', out', err', fun file => ?_⟩
    show ((s.withFile file).record e).recordAll rest = _
    rw [first]
    exact more file

theorem recordAll_withFile :
    (s.withFile file).recordAll events = (s.recordAll events).withFile file := by
  obtain ⟨kept, out, err, same⟩ := exists_recordAll s events
  rw [same]
  exact (congrArg (withFile · file) (same s.file)).symm

theorem recordAll_append :
    s.recordAll (before ++ after) = (s.recordAll before).recordAll after := List.foldl_append

/-! ### One event -/

theorem level_tag : (s.tag e).level = e.level := by
  unfold tag
  split
  · split <;> rfl
  · rfl

theorem dispatch_of_dropped (dropped : s.admits e = false) : s.dispatch e = s :=
  if_neg (by simp [dropped])

theorem dispatch_of_admits (admits : s.admits e = true) :
    s.dispatch e = (s.recordAll (s.accepted [e])).withFile (s.file.map (WorkFile.counted 1)) := by
  rw [← recordAll_withFile]
  have counts : s.countEvent = s.withFile (s.file.map (WorkFile.counted 1)) := rfl
  rw [dispatch, if_pos admits, counts, handOver, level_tag]
  split
  · rename_i accepts
    rw [accepted, List.filter_cons_of_pos (by exact accepts)]
    rfl
  · rename_i refuses
    rw [accepted, List.filter_cons_of_neg (by exact refuses)]
    rfl

/-- What the service accepts is decided by what no event changes. -/
theorem accepted_dispatch : (s.dispatch e).accepted events = s.accepted events := by
  cases admits : s.admits e with
  | false => rw [dispatch_of_dropped admits]
  | true =>
    obtain ⟨kept, out, err, same⟩ := exists_recordAll s (s.accepted [e])
    rw [dispatch_of_admits admits, ← recordAll_withFile, same]
    unfold accepted
    refine congrArg (List.map · _) ?_
    funext x
    cases file : s.file <;> simp [tag, file, WorkFile.counted]

/-! ### A run of events -/

theorem handed_append :
    s.handed (before ++ after) = s.handed before ++ (s.dispatchAll before).handed after := by
  induction before generalizing s with
  | nil => rfl
  | cons e rest ih => rw [List.cons_append, handed, handed, ih, List.append_assoc]; rfl

/-- A run gives to the sink what is handed over and accepted, and counts what is handed over. -/
theorem dispatchAll_eq : s.dispatchAll events = (s.recordAll (s.accepted (s.handed events))).withFile
    (s.file.map (WorkFile.counted (s.handed events).length)) := by
  induction events generalizing s with
  | nil =>
    show s = s.withFile (s.file.map (WorkFile.counted 0))
    cases file : s.file with
    | none => rw [Option.map_none, ← file]; rfl
    | some f => rw [Option.map_some, WorkFile.counted, Nat.add_zero, ← file]; rfl
  | cons e rest ih =>
    show (s.dispatch e).dispatchAll rest = _
    rw [ih, accepted_dispatch, handed]
    cases admits : s.admits e with
    | false =>
      rw [dispatch_of_dropped admits]
      rfl
    | true =>
      generalize (s.dispatch e).handed rest = more
      have split : s.accepted (e :: more) = s.accepted [e] ++ s.accepted more := by
        rw [accepted, accepted, accepted, ← List.map_append, ← List.filter_append]
        rfl
      rw [dispatch_of_admits admits, recordAll_withFile, ← recordAll_append, ← split]
      show (s.recordAll (s.accepted (e :: more))).withFile
        ((s.file.map (WorkFile.counted 1)).map (WorkFile.counted more.length)) = _
      rw [Option.map_map]
      have counts : WorkFile.counted more.length ∘ WorkFile.counted 1 =
          WorkFile.counted (e :: more).length := by
        funext f
        simp only [Function.comp, WorkFile.counted, List.length_cons, WorkFile.mk.injEq, true_and]
        omega
      rw [counts]
      rfl

theorem limits_dispatchAll : (s.dispatchAll events).limits = s.limits := by
  obtain ⟨kept, out, err, same⟩ := exists_recordAll s (s.accepted (s.handed events))
  rw [dispatchAll_eq, ← recordAll_withFile, same]

theorem handed_of_no_file (none : s.file = none) : s.handed events = events := by
  induction events generalizing s with
  | nil => rfl
  | cons e rest ih =>
    have admits : s.admits e = true := by simp [Session.admits, none]
    have still : (s.dispatch e).file = Option.none := by
      rw [dispatch_of_admits admits, none]
      rfl
    rw [handed, if_pos admits, ih still]
    rfl

section OpenFile
variable {label : String}

theorem file_openFile : (s.openFile label).file = some { label } := rfl

/-- How many events of a file were handed over decides about the next one that is no error. -/
theorem handed_concat : (s.openFile label).handed (before ++ [e]) = (s.openFile label).handed before ++
    if e.isError = true ∨ ((s.openFile label).handed before).length < s.limits.fileEvents then [e]
    else [] := by
  have file : ((s.openFile label).dispatchAll before).file =
      some { label, logged := ((s.openFile label).handed before).length } := by
    rw [dispatchAll_eq, file_openFile]
    simp [withFile, WorkFile.counted]
  have cap : ((s.openFile label).dispatchAll before).limits = s.limits := limits_dispatchAll
  rw [handed_append]
  simp [handed, Session.admits, file, cap]

theorem errors_handed :
    ((s.openFile label).handed events).filter (·.isError) = events.filter (·.isError) := by
  induction events using List.reverseRecOn with
  | nil => rfl
  | append_singleton before e ih =>
    rw [handed_concat, List.filter_append, List.filter_append, ih]
    cases severe : e.isError with
    | true => simp [severe]
    | false => split <;> simp [severe]

theorem handed_sublist : ((s.openFile label).handed events).Sublist events := by
  induction events using List.reverseRecOn with
  | nil => exact .refl []
  | append_singleton before e ih =>
    rw [handed_concat]
    refine ih.append ?_
    split
    · exact .refl _
    · exact List.nil_sublist _

theorem countP_handed_le :
    ((s.openFile label).handed events).countP (!·.isError) ≤ s.limits.fileEvents := by
  induction events using List.reverseRecOn with
  | nil => exact Nat.zero_le _
  | append_singleton before e ih =>
    rw [handed_concat, List.countP_append]
    -- An event that is no error is let through only while there is room for one more.
    have all := List.countP_le_length (p := (!·.isError)) (l := (s.openFile label).handed before)
    cases severe : e.isError with
    | true => simpa [severe] using ih
    | false =>
      split
      · rename_i room
        simp [severe] at room ⊢
        omega
      · simpa using ih

end OpenFile

/-- Of the events of a file, those are handed over that are errors or have fewer than the limit handed
over before them. So no error is lost, the order is kept, and no more than the limit of the others
come through. What is handed over is counted, and given to the sink as far as it passes the threshold.
Without a file everything is handed over. -/
theorem file_share (s : Session) (label : String) (events : List Event) :
    (∀ before e, (s.openFile label).handed (before ++ [e]) = (s.openFile label).handed before ++
      if e.isError = true ∨ ((s.openFile label).handed before).length < s.limits.fileEvents then [e]
      else []) ∧
    ((s.openFile label).handed events).filter (·.isError) = events.filter (·.isError) ∧
    ((s.openFile label).handed events).Sublist events ∧
    ((s.openFile label).handed events).countP (!·.isError) ≤ s.limits.fileEvents ∧
    (s.openFile label).dispatchAll events = ((s.openFile label).recordAll
        ((((s.openFile label).handed events).filter fun e =>
          e.level.rank ≤ s.service.threshold.rank).map (s.openFile label).tag)).withFile
      (some { label, logged := ((s.openFile label).handed events).length }) ∧
    s.closeFile.handed events = events ∧
    s.closeFile.dispatchAll events = s.closeFile.recordAll
      (events.filter fun e => e.level.rank ≤ s.service.threshold.rank) := by
  refine ⟨fun before e => handed_concat, errors_handed, handed_sublist, countP_handed_le, ?_, ?_, ?_⟩
  · rw [dispatchAll_eq]
    simp only [file_openFile, Option.map_some, WorkFile.counted, Nat.zero_add]
    rfl
  · exact handed_of_no_file rfl
  · have plain : s.closeFile.accepted events =
        events.filter fun e => e.level.rank ≤ s.service.threshold.rank := by
      rw [accepted, show s.closeFile.tag = id from rfl, List.map_id]
      rfl
    rw [dispatchAll_eq, handed_of_no_file rfl, plain, ← recordAll_withFile]
    rfl

/-! ### Events in memory -/

theorem kept_recordAll (memory : s.service.sink = .memory) :
    (s.recordAll events).kept = s.kept ++ events.toArray := by
  induction events generalizing s with
  | nil => simp [recordAll]
  | cons e rest ih =>
    have first : s.record e = { s with kept := s.kept.push e } := by
      unfold record
      rw [memory]
    show ((s.record e).recordAll rest).kept = _
    rw [first, ih (by exact memory)]
    simp

/-- A sink in memory gets exactly the events that are handed over and pass the threshold, in their
order and behind those that it held before. -/
theorem kept_dispatchAll (memory : s.service.sink = .memory) :
    (s.dispatchAll events).kept = s.kept ++ (((s.handed events).filter fun e =>
      e.level.rank ≤ s.service.threshold.rank).map s.tag).toArray := by
  rw [dispatchAll_eq]
  exact kept_recordAll memory

end Session

end Restyle.Log

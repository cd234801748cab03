import Mathlib.Data.List.TakeWhile
import Restyle.Chain.Line
import Restyle.Proofs.Chain.History

/-!
# Looking around in a run

Past whitespace and back to the start of a line, seen in the run of a node. Both ways to look past
whitespace are one walk (`lookPast`), which finds the nearest visible node of the list it goes along
(`nearest_of_path`). The indent of a line is read off the texts before a node (`indentAt_of_run`).
-/

namespace Restyle
open Trail (IsPath)
open Outcome

namespace Text
variable {p : Char → Bool} {t x y : Text} {ts : List Text}

/-! ### Last lines -/

theorem leading_eq (p : Char → Bool) (ts : List Text) : leading p ts = ts.flatten.takeWhile p := by
  induction ts with
  | nil => rfl
  | cons t ts ih =>
    unfold leading
    rw [List.flatten_cons]
    split
    · rename_i all
      rw [List.takeWhile_append_of_pos (List.all_eq_true.mp all), ih]
    · rename_i some
      rw [List.takeWhile_append, if_neg]
      intro whole
      apply some
      rw [List.all_eq_true]
      intro c member
      rw [← (List.takeWhile_prefix p).eq_of_length whole] at member
      exact List.mem_takeWhile_imp member

theorem lastLine_append (inside : '\n' ∉ y) : lastLine (x ++ y) = lastLine x ++ y := by
  unfold lastLine
  rw [List.reverse_append, List.takeWhile_append_of_pos, List.reverse_append, List.reverse_reverse]
  intro c member
  rw [bne_iff_ne]
  rintro rfl
  exact inside (List.mem_reverse.mp member)

theorem lastLine_append_of_mem (member : '\n' ∈ y) : lastLine (x ++ y) = lastLine y := by
  unfold lastLine
  rw [List.reverse_append, List.takeWhile_append, if_neg]
  intro whole
  have same := (List.takeWhile_prefix _).eq_of_length whole
  rw [← List.mem_reverse, ← same] at member
  have other := List.mem_takeWhile_imp member
  simp at other

theorem lastLine_split (t : Text) : ∃ above, t = above ++ lastLine t ∧
    (above = [] ∨ above.getLast? = some '\n') ∧ '\n' ∉ lastLine t := by
  have whole := List.takeWhile_append_dropWhile (p := (· != '\n')) (l := t.reverse)
  refine ⟨(t.reverse.dropWhile (· != '\n')).reverse, ?_, ?_, ?_⟩
  · unfold lastLine
    rw [← List.reverse_append, whole, List.reverse_reverse]
  · cases rest : t.reverse.dropWhile (· != '\n') with
    | nil => exact .inl rfl
    | cons c rest' =>
      have first := List.head_dropWhile_not (· != '\n') (l := t.reverse) (by simp [rest])
      simp only [rest, List.head_cons, bne_eq_false_iff_eq] at first
      subst first
      exact .inr (by simp)
  · intro member
    have other := List.mem_takeWhile_imp (List.mem_reverse.mp member)
    simp at other

/-- The text ends with a line that starts with this indent, and with no longer one. -/
structure EndsIndented (t indent : Text) : Prop where
  line : ∃ above line, t = above ++ line ∧ (above = [] ∨ above.getLast? = some '\n') ∧
    '\n' ∉ line ∧ indent <+: line ∧
      ∀ longer, longer <+: line → (∀ c ∈ longer, c ∈ [' ', '\t', '\r', '\x0b', '\x0c']) →
        longer.length ≤ indent.length
  blank : ∀ c ∈ indent, c ∈ [' ', '\t', '\r', '\x0b', '\x0c']

theorem isIndent_iff {c : Char} : isIndent c = true ↔ c ∈ [' ', '\t', '\r', '\x0b', '\x0c'] := by
  simp [isIndent, or_assoc]

theorem endsIndented_takeWhile (t : Text) : EndsIndented t ((lastLine t).takeWhile isIndent) := by
  obtain ⟨above, split, starts, inside⟩ := lastLine_split t
  refine ⟨⟨above, lastLine t, split, starts, inside, List.takeWhile_prefix _, ?_⟩, ?_⟩
  · rintro longer ⟨rest, whole⟩ blank
    rw [← whole, List.takeWhile_append_of_pos fun c member => isIndent_iff.mpr (blank c member),
      List.length_append]
    omega
  · exact fun c member => isIndent_iff.mp (List.mem_takeWhile_imp member)

end Text

namespace Chain
variable {c : Chain} {k r id a b x : NodeId} {before after spaces l : List NodeId}

/-! ### Neighbors -/

theorem next_ok : c.next id = .ok b ↔ c.next? id = some b := by
  simp only [next, nextLink, bind_ok, map_ok, node_ok, next?, Option.bind_eq_some_iff]
  constructor
  · rintro ⟨link, ⟨node, found, rfl⟩, ok⟩
    split at ok
    · rename_i neighbor link
      exact ⟨node, found, by rw [link, pure_ok.mp ok]⟩
    · exact (throw_ok.mp ok).elim
  · rintro ⟨node, found, link⟩
    exact ⟨some b, ⟨node, found, link⟩, rfl⟩

theorem previous_ok : c.previous id = .ok b ↔ c.previous? id = some b := by
  simp only [previous, previousLink, bind_ok, map_ok, node_ok, previous?, Option.bind_eq_some_iff]
  constructor
  · rintro ⟨link, ⟨node, found, rfl⟩, ok⟩
    split at ok
    · rename_i neighbor link
      exact ⟨node, found, by rw [link, pure_ok.mp ok]⟩
    · exact (throw_ok.mp ok).elim
  · rintro ⟨node, found, link⟩
    exact ⟨some b, ⟨node, found, link⟩, rfl⟩

theorem next_error (known : c.Known id) (last : c.next? id = none) :
    c.next id = .error (.noNeighbor id .next) := by
  obtain ⟨node, found⟩ := known
  have link : node.next = none := by rw [← next?_of_get? found, last]
  simp [next, nextLink, node_ok.mpr found, Except.map, link, bind, Except.bind, throw, throwThe,
    MonadExceptOf.throw]

theorem previous_error (known : c.Known id) (first : c.previous? id = none) :
    c.previous id = .error (.noNeighbor id .previous) := by
  obtain ⟨node, found⟩ := known
  have link : node.previous = none := by rw [← previous?_of_get? found, first]
  simp [previous, previousLink, node_ok.mpr found, Except.map, link, bind, Except.bind, throw,
    throwThe, MonadExceptOf.throw]

theorem previousLink_of_known (known : c.Known id) : c.previousLink id = .ok (c.previous? id) := by
  obtain ⟨node, found⟩ := known
  simp [previousLink, node_ok.mpr found, Except.map, previous?_of_get? found]

/-! ### The ways out of a node -/

section Run
variable (wf : c.WellFormed) (known : c.Known k) (run : c.IsRun (before ++ k :: after))
include run

theorem IsRun.path_after : IsPath c.next? (k :: after) := run.path.right

theorem IsRun.stuck_after : c.next? ((k :: after).getLast (by simp)) = none := by
  refine run.last _ ?_
  rw [List.getLast?_append_of_ne_nil _ (by simp), List.getLast?_eq_some_getLast (by simp)]
  rfl

include wf

theorem IsRun.path_before : IsPath c.previous? (k :: before.reverse) := by
  have path := (Trail.isPath_append_cons.mp run.path).1
  simpa using wf.path_reverse.mpr path

omit wf in
theorem IsRun.stuck_before : c.previous? ((k :: before.reverse).getLast (by simp)) = none := by
  refine run.first _ ?_
  cases before <;> simp

include known

theorem IsRun.length_lt : before.length + after.length < c.size := by
  have bound := wf.path_length_le run.path (a := k) (by simp) known
  simp only [List.length_append, List.length_cons] at bound
  omega

end Run

/-! ### Past whitespace -/

/-- What is seen from a node in one direction, past whitespace. -/
def lookPast (c : Chain) (step : NodeId → Option NodeId) (side : Direction) (k : NodeId) :
    Except ChainError NodeId :=
  match step k with
  | none => .error (.noNeighbor k side)
  | some a =>
    let trail := Trail.walk step (fun x => !c.isWhitespace x) (c.size - 1) a
    if !c.isWhitespace trail.last then .ok trail.last
    else .error (.noNeighbor (if (step trail.last).isSome then k else trail.last) side)

theorem nextVisible_eq (known : c.Known k) : c.nextVisible k = c.lookPast c.next? .next k := by
  unfold nextVisible lookPast
  cases next : c.next? k with
  | none => rw [next_error known next]; rfl
  | some a => rw [next_ok.mpr next]; rfl

theorem previousVisible_eq (known : c.Known k) :
    c.previousVisible k = c.lookPast c.previous? .previous k := by
  unfold previousVisible lookPast
  cases previous : c.previous? k with
  | none => rw [previous_error known previous]; rfl
  | some a => rw [previous_ok.mpr previous]; rfl

/-- What was found is the first visible node of the list, and it is missed only if there is none. -/
structure Nearest (c : Chain) (l : List NodeId) (found : Except ChainError NodeId) : Prop where
  ok : ∀ r, found = .ok r ↔ ∃ spaces rest, l = spaces ++ r :: rest ∧
    (∀ x ∈ spaces, c.isWhitespace x = true) ∧ c.isWhitespace r = false
  missing : (∃ x side, found = .error (.noNeighbor x side)) ↔ ∀ x ∈ l, c.isWhitespace x = true

/-- A list is split at its first visible node in one way. -/
theorem find?_visible : l.find? (fun x => !c.isWhitespace x) = some r ↔ ∃ spaces rest,
    l = spaces ++ r :: rest ∧ (∀ x ∈ spaces, c.isWhitespace x = true) ∧ c.isWhitespace r = false := by
  rw [List.find?_eq_some_iff_append]
  constructor
  · rintro ⟨visible, spaces, rest, rfl, space⟩
    exact ⟨spaces, rest, rfl, by simpa using space, by simpa using visible⟩
  · rintro ⟨spaces, rest, rfl, space, visible⟩
    exact ⟨by simp [visible], spaces, rest, rfl, by simpa using space⟩

theorem nearest_ok (space : ∀ x ∈ spaces, c.isWhitespace x = true)
    (visible : c.isWhitespace r = false) : c.Nearest (spaces ++ r :: l) (.ok r) := by
  have first := find?_visible.mpr ⟨spaces, l, rfl, space, visible⟩
  refine ⟨fun r' => ?_, ?_⟩
  · rw [← find?_visible, first]
    simp
  · refine ⟨by simp, fun all => ?_⟩
    rw [all r (by simp)] at visible
    cases visible

theorem nearest_error {side : Direction} (space : ∀ y ∈ l, c.isWhitespace y = true) :
    c.Nearest l (.error (.noNeighbor x side)) := by
  refine ⟨fun r => ?_, fun _ => space, fun _ => ⟨x, side, rfl⟩⟩
  refine ⟨by simp, ?_⟩
  rintro ⟨spaces, rest, rfl, -, visible⟩
  rw [space r (by simp)] at visible
  cases visible

/-- A walk along the list finds its nearest visible node. -/
theorem nearest_of_path {step : NodeId → Option NodeId} {side : Direction}
    (path : IsPath step (k :: l)) (stuck : step ((k :: l).getLast (by simp)) = none)
    (bound : l.length ≤ c.size) : c.Nearest l (c.lookPast step side k) := by
  unfold lookPast
  cases l with
  | nil =>
    rw [show step k = none from stuck]
    exact nearest_error (by simp)
  | cons a l =>
    obtain ⟨next, path⟩ := Trail.isPath_cons_cons.mp path
    obtain ⟨spaces, x, rest, split, space, ends⟩ :=
      Trail.exists_stop (fun x => !c.isWhitespace x) (List.cons_ne_nil a l)
    have stops : (!c.isWhitespace x) = true ∨ step x = none := by
      refine ends.imp id ?_
      rintro rfl
      simpa [split] using stuck
    have walk := Trail.walk_of_split path split space stops (n := c.size - 1)
      (by simp only [List.length_cons] at bound; omega)
    have space : ∀ y ∈ spaces, c.isWhitespace y = true := by simpa using space
    rw [next]
    dsimp only
    rw [walk, split]
    dsimp only
    cases seen : c.isWhitespace x with
    | false => exact nearest_ok space seen
    | true =>
      obtain rfl : rest = [] := by simpa [seen] using ends
      apply nearest_error
      intro y member
      rcases List.mem_append.mp member with early | last
      · exact space y early
      · rwa [List.mem_singleton.mp last]

section Run
variable (wf : c.WellFormed)
include wf

theorem WellFormed.nearest_next (known : c.Known k) (run : c.IsRun (before ++ k :: after)) :
    c.Nearest after (c.nextVisible k) := by
  have room := run.length_lt wf known
  rw [nextVisible_eq known]
  exact nearest_of_path run.path_after run.stuck_after (by omega)

theorem WellFormed.nearest_previous (known : c.Known k) (run : c.IsRun (before ++ k :: after)) :
    c.Nearest before.reverse (c.previousVisible k) := by
  have room := run.length_lt wf known
  rw [previousVisible_eq known]
  exact nearest_of_path (run.path_before wf) run.stuck_before
    (by rw [List.length_reverse]; omega)

theorem WellFormed.nextVisible_ok (run : c.IsRun (before ++ k :: (spaces ++ r :: after)))
    (space : ∀ x ∈ spaces, c.isWhitespace x = true) (visible : c.isWhitespace r = false) :
    c.nextVisible k = .ok r := by
  obtain ⟨a, next⟩ : ∃ a, c.next? k = some a := by
    rw [run.next?_of_append]
    cases spaces <;> exact ⟨_, rfl⟩
  exact ((wf.nearest_next (known_of_next? next) run).ok r).mpr ⟨spaces, after, rfl, space, visible⟩

theorem WellFormed.nextVisible_error (known : c.Known k) (run : c.IsRun (before ++ k :: spaces))
    (space : ∀ x ∈ spaces, c.isWhitespace x = true) :
    ∃ x side, c.nextVisible k = .error (.noNeighbor x side) :=
  (wf.nearest_next known run).missing.mpr space

theorem WellFormed.previousVisible_ok (run : c.IsRun (before ++ r :: (spaces ++ k :: after)))
    (space : ∀ x ∈ spaces, c.isWhitespace x = true) (visible : c.isWhitespace r = false) :
    c.previousVisible k = .ok r := by
  have whole : c.IsRun ((before ++ r :: spaces) ++ k :: after) := by simpa using run
  obtain ⟨a, previous⟩ : ∃ a, c.previous? k = some a := by
    rw [whole.previous?_of_append wf]
    exact ⟨_, List.getLast?_eq_some_getLast (by simp)⟩
  refine ((wf.nearest_previous (known_of_previous? previous) whole).ok r).mpr
    ⟨spaces.reverse, before.reverse, by simp, by simpa using space, visible⟩

theorem WellFormed.previousVisible_error (known : c.Known k) (run : c.IsRun (spaces ++ k :: after))
    (space : ∀ x ∈ spaces, c.isWhitespace x = true) :
    ∃ x side, c.previousVisible k = .error (.noNeighbor x side) :=
  (wf.nearest_previous known run).missing.mpr (by simpa using space)

end Run

/-! ### The start of a line -/

theorem breaksLine_iff : c.breaksLine id = true ↔ '\n' ∈ c.textOf id := by
  unfold breaksLine tokenIs textOf Token.hasLineFeed Text.hasLineFeed
  cases c.get? id <;> simp

theorem textOfAll_quiet (quiet : ∀ y ∈ l, c.breaksLine y = false) : '\n' ∉ c.textOfAll l := by
  intro member
  obtain ⟨y, inside, breaks⟩ := List.mem_flatMap.mp member
  have no := quiet y inside
  rw [breaksLine_iff.mpr breaks] at no
  cases no

/-- The indent is that of the last line before the node. -/
theorem WellFormed.indentAt_of_run (wf : c.WellFormed) (known : c.Known k)
    (run : c.IsRun (before ++ k :: after)) :
    c.indentAt k = .ok ((Text.lastLine (c.textOfAll before)).takeWhile Text.isIndent) := by
  unfold indentAt
  rw [previousLink_of_known known]
  have path := run.path_before wf
  have stuck := run.stuck_before
  have room := run.length_lt wf known
  obtain ⟨l, rfl⟩ : ∃ l : List NodeId, before = l.reverse := ⟨before.reverse, by simp⟩
  rw [List.reverse_reverse] at path
  simp only [List.reverse_reverse, List.length_reverse] at stuck room
  cases l with
  | nil =>
    rw [show c.previous? k = none from stuck]
    rfl
  | cons b l =>
    obtain ⟨previous, path⟩ := Trail.isPath_cons_cons.mp path
    obtain ⟨quiet, x, rest, split, calm, ends⟩ :=
      Trail.exists_stop c.breaksLine (List.cons_ne_nil b l)
    have stops : c.breaksLine x = true ∨ c.previous? x = none := by
      refine ends.imp id ?_
      rintro rfl
      simpa [split] using stuck
    have walk : c.behind c.breaksLine b = ⟨x, quiet.reverse⟩ :=
      Trail.walk_of_split path split calm stops (by simp only [List.length_cons] at room; omega)
    have fine : (!c.breaksLine x && (c.previous? x).isSome) = false := by
      rcases stops with stop | stop <;> simp [stop]
    -- The line starts in the text of `x`, and the nodes after it go on with it.
    have start : Text.lastLine (c.textOfAll rest.reverse ++ c.textOf x) =
        Text.lastLine (c.textOf x) := by
      rcases ends with breaks | rfl
      · exact Text.lastLine_append_of_mem (breaksLine_iff.mp breaks)
      · rfl
    have line : Text.lastLine (c.textOfAll (b :: l).reverse) =
        Text.lastLine (c.textOf x) ++ c.textOfAll quiet.reverse := by
      have texts : c.textOfAll (b :: l).reverse =
          (c.textOfAll rest.reverse ++ c.textOf x) ++ c.textOfAll quiet.reverse := by
        rw [split]
        simp [textOfAll]
      rw [texts, Text.lastLine_append (textOfAll_quiet (by simpa using calm)), start]
    rw [line, previous]
    simp only [bind, Except.bind, walk, fine, Text.leading_eq, List.flatten_cons]
    rw [← List.flatMap_def]
    rfl

theorem WellFormed.indentAt_isOk (wf : c.WellFormed) (known : c.Known id) :
    ∃ text, c.indentAt id = .ok text := by
  obtain ⟨before, after, run⟩ := wf.exists_run known
  exact ⟨_, wf.indentAt_of_run known run⟩

/-- The indent of a node is found, and it starts the line on which the node stands. -/
theorem indentAt_starts_line (wf : c.WellFormed) (known : c.Known id) :
    (∃ before after, c.IsRun (before ++ id :: after)) ∧
    ∀ before after, c.IsRun (before ++ id :: after) →
      ∃ indent, c.indentAt id = .ok indent ∧ (c.textOfAll before).EndsIndented indent := by
  refine ⟨wf.exists_run known, fun before after run => ?_⟩
  exact ⟨_, wf.indentAt_of_run known run, Text.endsIndented_takeWhile _⟩

/-- The line of the last node starts inside the string before it. -/
theorem indentAt_starts_line_in_string : ∃ c : Chain, c.WellFormed ∧ c.Known (.ofIndex 2) ∧
    c.IsRun ([.ofIndex 0, .ofIndex 1] ++ .ofIndex 2 :: []) ∧
    c.textOfAll [.ofIndex 0, .ofIndex 1] = "'a\n\t b' ".toList ∧
    c.indentAt (.ofIndex 2) = .ok "\t ".toList ∧
    Text.EndsIndented "'a\n\t b' ".toList "\t ".toList := by
  let start : Chain := { capacity := Limits.development.nodes }
  let c := start.afterAll [
    .create (.classify .stringLiteral "'a\n\t b'".toList), .create (.classify .whitespace [' ']),
    .create (.classify .identifier ['c']), .insertAfter (.ofIndex 0) (.ofIndex 1),
    .insertAfter (.ofIndex 1) (.ofIndex 2)]
  have starts : start.IsStart .development := .inl rfl
  have wf : c.WellFormed := (starts.wellFormed (by decide)).afterAll (by decide)
  have known : c.Known (.ofIndex 2) := known_iff_lt.mpr (by decide +kernel)
  have order : c.order = [.ofIndex 0, .ofIndex 1] ++ .ofIndex 2 :: [] := by decide +kernel
  have head : c.head = some (.ofIndex 0) := by decide +kernel
  have run := (wf.order_isRun head).1
  rw [order] at run
  have text : c.textOfAll [.ofIndex 0, .ofIndex 1] = "'a\n\t b' ".toList := by decide +kernel
  have value : (c.indentAt (.ofIndex 2)).toOption = some "\t ".toList := by decide +kernel
  obtain ⟨indent, found, ends⟩ := (indentAt_starts_line wf known).2 _ _ run
  rw [found] at value
  obtain rfl := Option.some.inj value
  exact ⟨c, wf, known, run, text, found, text ▸ ends⟩

/-! ### Both ways -/

theorem known_of_nextVisible (found : c.nextVisible a = .ok b) : c.Known a := by
  obtain ⟨x, next, -⟩ := bind_ok.mp found
  exact known_of_next? (next_ok.mp next)

theorem known_of_previousVisible (found : c.previousVisible a = .ok b) : c.Known a := by
  obtain ⟨x, previous, -⟩ := bind_ok.mp found
  exact known_of_previous? (previous_ok.mp previous)

theorem WellFormed.previousVisible_of_next (wf : c.WellFormed) (visible : c.isWhitespace a = false)
    (found : c.nextVisible a = .ok b) : c.previousVisible b = .ok a := by
  have known := known_of_nextVisible found
  obtain ⟨before, after, run⟩ := wf.exists_run known
  obtain ⟨spaces, rest, rfl, space, -⟩ := ((wf.nearest_next known run).ok b).mp found
  exact wf.previousVisible_ok run space visible

theorem WellFormed.nextVisible_of_previous (wf : c.WellFormed) (visible : c.isWhitespace b = false)
    (found : c.previousVisible b = .ok a) : c.nextVisible a = .ok b := by
  have known := known_of_previousVisible found
  obtain ⟨before, after, run⟩ := wf.exists_run known
  obtain ⟨spaces, rest, split, space, -⟩ := ((wf.nearest_previous known run).ok a).mp found
  obtain rfl : before = rest.reverse ++ a :: spaces.reverse := by
    rw [← List.reverse_reverse before, split]
    simp
  exact wf.nextVisible_ok (by simpa using run) (by simpa using space) visible

/-- Looking past whitespace finds the nearest visible node on either side, if the run has one there,
and leads back from it. -/
theorem nearest_visible_both_ways (wf : c.WellFormed) :
    (∀ id, c.Known id → (∃ before after, c.IsRun (before ++ id :: after)) ∧
      ∀ before after, c.IsRun (before ++ id :: after) →
        c.Nearest after (c.nextVisible id) ∧ c.Nearest before.reverse (c.previousVisible id)) ∧
    ∀ a b, c.isWhitespace a = false → c.isWhitespace b = false →
      (c.nextVisible a = .ok b ↔ c.previousVisible b = .ok a) := by
  refine ⟨fun id known => ⟨wf.exists_run known, fun before after run => ?_⟩, ?_⟩
  · exact ⟨wf.nearest_next known run, wf.nearest_previous known run⟩
  · intro a b visibleA visibleB
    exact ⟨wf.previousVisible_of_next visibleA, wf.nextVisible_of_previous visibleB⟩

/-- Two visible nodes with whitespace between them and behind them. -/
theorem nearest_visible_both_ways_spaces : ∃ c : Chain, c.WellFormed ∧
    c.order.map c.textOf = [['a'], [' '], ['\n'], ['b'], [' ']] ∧
    c.nextVisible (.ofIndex 0) = .ok (.ofIndex 3) ∧
    c.previousVisible (.ofIndex 3) = .ok (.ofIndex 0) ∧
    ∃ x side, c.nextVisible (.ofIndex 3) = .error (.noNeighbor x side) := by
  let start : Chain := { capacity := Limits.development.nodes }
  let c := start.afterAll (([['a'], [' '], ['\n'], ['b'], [' ']].map fun text =>
      .create (.classify .identifier text)) ++
    ((List.range 4).map fun i => .insertAfter (.ofIndex i) (.ofIndex (i + 1))))
  have starts : start.IsStart .development := .inl rfl
  have wf : c.WellFormed := (starts.wellFormed (by decide)).afterAll (by decide)
  have order : c.order = [.ofIndex 0, .ofIndex 1, .ofIndex 2] ++ .ofIndex 3 :: [.ofIndex 4] := by
    decide +kernel
  have head : c.head = some (.ofIndex 0) := by decide +kernel
  have run := (wf.order_isRun head).1
  rw [order] at run
  have known : c.Known (.ofIndex 3) := known_iff_lt.mpr (by decide +kernel)
  obtain ⟨looks, both⟩ := nearest_visible_both_ways wf
  obtain ⟨after, before⟩ := (looks _ known).2 _ _ run
  have back : c.previousVisible (.ofIndex 3) = .ok (.ofIndex 0) :=
    (before.ok _).mpr ⟨[.ofIndex 2, .ofIndex 1], [], by decide, by decide +kernel, by decide +kernel⟩
  exact ⟨c, wf, by decide +kernel, (both _ _ (by decide +kernel) (by decide +kernel)).mpr back, back,
    after.missing.mpr (by decide +kernel)⟩

end Chain

end Restyle

import Restyle.Proofs.Rule.Progress
import Restyle.Proofs.Rule.Reading
import Restyle.Proofs.Rule.Rebuilt

/-!
# What the rule does to one class

A class loses its defaults (`kept`) and gets the statements that assign them, in one piece: before the
end of its constructor, or in a new one after its last property (`Rewritten`).
-/

namespace Restyle.ConstructorDefaults
open RuleM
open Chain (Inserted)
open ClassDecl (membersOf outline)
open Lexer (IsName)
open Token (visible)
variable {c d : Chain} {ds : List ClassDecl} {cls : ClassDecl} {w w' w₁ : Workspace}
  {x : Property × Initializer} {xs : List (Property × Initializer)} {f f' : Forest}
  {left right order l r : List NodeId} {inside : Forest} {indent : Text} {statements : List (List Token)}

/-! ### The nodes that stay -/

/-- The nodes of a chain but for those between the variable and the semicolon of a default that has to
move. -/
def kept (c : Chain) (cls : ClassDecl) : List NodeId :=
  c.order.filter fun id => ∀ x ∈ movable cls, ¬ [x.1.variableId, id, x.1.terminator].Sublist c.order

theorem filter_not_mem {front mid back back' : List NodeId} (nodup : (front ++ (mid ++ back)).Nodup)
    (within : ∀ id ∈ back', id ∈ back) :
    (front ++ (mid ++ back')).filter (· ∉ mid) = front ++ back' := by
  obtain ⟨-, second, apart⟩ := List.nodup_append.mp nodup
  obtain ⟨-, -, apart'⟩ := List.nodup_append.mp second
  have first : front.filter (· ∉ mid) = front := by
    refine List.filter_eq_self.mpr fun id member => decide_eq_true fun inside => ?_
    exact apart id member id (List.mem_append_left _ inside) rfl
  have middle : mid.filter (· ∉ mid) = [] :=
    List.filter_eq_nil_iff.mpr fun id member => by simpa using member
  have last : back'.filter (· ∉ mid) = back' := by
    refine List.filter_eq_self.mpr fun id member => decide_eq_true fun inside => ?_
    exact apart' id inside id (within id member) rfl
  rw [List.filter_append, List.filter_append, first, middle, last, List.nil_append]

theorem Layout.filter_order (layout : Layout c f xs f') (nodup : order.Nodup)
    (split : order = left ++ (f.ids ++ right)) :
    (order.filter fun id => ∀ x ∈ xs, ¬ [x.1.variableId, id, x.1.terminator].Sublist order) =
      left ++ (f'.ids ++ right) := by
  induction layout generalizing left with
  | nil f => simp [← split]
  | cons g lead core trail f f' x xs done default plain moves here without rest ih =>
    have place : order = (left ++ g.ids) ++ x.1.variableId ::
        ((lead ++ (core ++ trail)).ids ++ x.1.terminator :: (f.ids ++ right)) := by
      simp [split, Forest.ids]
    have behind : order = ((left ++ g.ids) ++ x.1.variableId ::
        ((lead ++ (core ++ trail)).ids ++ [x.1.terminator])) ++ (f.ids ++ right) := by simp [place]
    have gap : ∀ id, [x.1.variableId, id, x.1.terminator].Sublist order ↔
        id ∈ (lead ++ (core ++ trail)).ids := by
      intro id
      refine ⟨between_of_sublist nodup place, fun inside => ?_⟩
      rw [place]
      exact sublist_of_between inside
    have both : (order.filter fun id => ∀ y ∈ x :: xs,
          ¬ [y.1.variableId, id, y.1.terminator].Sublist order) =
        (order.filter fun id => ∀ y ∈ xs, ¬ [y.1.variableId, id, y.1.terminator].Sublist order).filter
          (· ∉ (lead ++ (core ++ trail)).ids) := by
      rw [List.filter_filter]
      refine List.filter_congr fun id _ => ?_
      simp only [List.forall_mem_cons, gap, Bool.decide_and]
    have parts : (((left ++ g.ids) ++ [x.1.variableId]) ++ ((lead ++ (core ++ trail)).ids ++
        (x.1.terminator :: (f.ids ++ right)))).Nodup := by
      rw [place] at nodup
      simpa using nodup
    have within : ∀ id ∈ x.1.terminator :: (f'.ids ++ right), id ∈ x.1.terminator :: (f.ids ++ right) := by
      intro id member
      simp only [List.mem_cons, List.mem_append] at member ⊢
      exact member.imp_right (Or.imp_left (rest.ids_subset id))
    have short := filter_not_mem parts within
    rw [both, ih behind]
    simpa [Forest.ids] using short

/-- The chain `d` is `c` without the defaults of the class, and has no linked nodes outside of its
order. -/
structure Stripped (c : Chain) (cls : ClassDecl) (d : Chain) (l : List NodeId) (inside : Forest)
    (r : List NodeId) : Prop extends Lightened c cls d l inside r where
  connected : d.Connected
  order : d.order = kept c cls

theorem ReadFrom.stripped (read : ReadFrom c cls) (sound : c.Sound) (journal : Array Log.Notice) :
    ∃ w₁ l inside r, (movable cls).forM (fun x => dropDefault cls x.1) ⟨c, journal⟩ = .ok () w₁ ∧
      Stripped c cls w₁.chain l inside r := by
  obtain ⟨l, inside, r, group, members⟩ := read.groupAt
  have defaults : (membersOf c inside).filterMap default? = movable cls ++ [] := by
    rw [← members, movable_eq, List.append_nil]
  obtain ⟨inside', layout⟩ := exists_layout group.fits.2.1 defaults
  have split : c.order = (l ++ [cls.body.opener]) ++ (inside.ids ++ cls.body.closer :: r) := by
    simp [group.order]
  obtain ⟨w₁, ok⟩ := drops_isOk cls (w := ⟨c, journal⟩) layout sound split
  obtain ⟨-, connected, order, -⟩ := layout.drops sound.toRoomy split ok
  obtain ⟨rest, light⟩ :=
    exists_lightened_body (w := ⟨c, journal⟩) sound.toRoomy group members ok
  refine ⟨w₁, l, rest, r, ok, light, connected sound.connected, ?_⟩
  rw [order, kept, layout.filter_order sound.wellFormed.order_nodup split]

/-- A class gets done if there is room. -/
theorem ReadFrom.full (read : ReadFrom c cls) (sound : c.Sound) (active : Active cls.members)
    (journal : Array Log.Notice) : FailsIn Full (tidy cls) ⟨c, journal⟩ := by
  have wf := sound.wellFormed
  obtain ⟨w₁, _, _, _, ok, stripped⟩ := read.stripped sound journal
  obtain ⟨l, inside, r, group, members⟩ := read.groupAt
  refine tidy_full wf (read.anchored sound) active ?_ ?_ ⟨w₁, ok,
    ⟨stripped.roomy, stripped.connected⟩, stripped.tokens,
    fun m found body has => stripped.groupAt_body found has, fun p member => stripped.semicolon member⟩
  · intro m found body has
    obtain ⟨f₁, inner, f₂, -, place⟩ :=
      groupAt_of_method group (members ▸ method_of_constructor found) has
    exact ⟨_, inner, _, place⟩
  · intro x member
    obtain ⟨core, -, span⟩ := read.span wf member
    exact ⟨core.ids, span⟩

/-! ### The statements, whitespace aside -/

def Assigns (c : Chain) (x : Property × Initializer) (statement : List Token) : Prop :=
  ∃ name ids ts, c.token? x.1.variableId = some ⟨.variableName, '$' :: name⟩ ∧
    c.span x.2.first x.2.last = .ok ids ∧ ids.map c.token? = ts.map some ∧
    statement = [⟨.variableName, "$this".toList⟩, operator "->", ⟨.identifier, name⟩, operator "="] ++
      visible ts ++ [mark ';']

def written (cls : ClassDecl) (statements : List (List Token)) : List Token :=
  match cls.constructor? with
  | some _ => statements.flatten
  | none =>
    [keyword "public", keyword "function", identifier "__construct".toList, mark '(', mark ')',
      mark '{'] ++ ((if cls.hasParent then parentCall else []) ++ statements.flatten) ++ [mark '}']

theorem visible_reindent {source target : Text} {ts : List Token} :
    visible (ts.map (reindent source target)) = visible ts := by
  induction ts with
  | nil => rfl
  | cons t ts ih =>
    rw [List.map_cons]
    rcases reindent_cases source target t with same | ⟨blank, blank'⟩
    · rw [same]
      cases seen : t.isWhitespace with
      | false => rw [Token.visible_of_seen seen, Token.visible_of_seen seen, ih]
      | true => rw [Token.visible_of_blank seen, Token.visible_of_blank seen, ih]
    · rw [Token.visible_of_blank blank, Token.visible_of_blank blank', ih]

theorem visible_block : visible (block indent statements) = (statements.map visible).flatten := by
  induction statements with
  | nil => rfl
  | cons s statements ih =>
    rw [block, List.flatMap_cons, List.cons_append, Token.visible_of_blank isWhitespace_newLine,
      Token.visible_append, List.map_cons, List.flatten_cons]
    exact congrArg _ ih

theorem visible_constructorTokens {separator propertyIndent : Text} :
    visible (constructorTokens separator propertyIndent indent statements) =
      [keyword "public", keyword "function", identifier "__construct".toList, mark '(', mark ')',
        mark '{'] ++ (statements.map visible).flatten ++ [mark '}'] := by
  have blank : (Token.classify .whitespace separator).isWhitespace = true :=
    Token.isWhitespace_classify _
  have head : visible (.classify .whitespace separator :: ([keyword "public", space, keyword "function",
      space, identifier "__construct".toList, mark '(', mark ')'] ++ newLine propertyIndent ::
        [mark '{'])) = [keyword "public", keyword "function", identifier "__construct".toList, mark '(',
        mark ')', mark '{'] := by
    rw [Token.visible_of_blank blank, Token.visible_append, Token.visible_of_blank isWhitespace_newLine]
    decide
  have tail : visible [newLine propertyIndent, mark '}'] = [mark '}'] := by
    rw [Token.visible_of_blank isWhitespace_newLine]
    decide
  rw [constructorTokens, Token.visible_append, Token.visible_append, visible_block, tail]
  exact congrArg (· ++ (statements.map visible).flatten ++ [mark '}']) head

theorem visible_constructor (none : cls.constructor? = none) {separator propertyIndent : Text} :
    visible (constructorTokens separator propertyIndent indent
      (if cls.hasParent then parentCall :: statements else statements)) =
        written cls (statements.map visible) := by
  have call : visible parentCall = parentCall := by decide
  rw [visible_constructorTokens, written, none]
  cases cls.hasParent with
  | true => simp [call]
  | false => simp

theorem visible_body {m : Method} (found : m ∈ cls.constructor?) :
    visible (block indent statements) = written cls (statements.map visible) := by
  rw [visible_block, written, Option.mem_def.mp found]

def NamesVariables (c : Chain) : Prop :=
  ∀ id ∈ c.order, ∀ t, c.token? id = some t → t.kind = .variableName →
    ∃ name, IsName name ∧ t.text = '$' :: name

theorem namesVariables_of_source {profile : String} {limits : Limits} {source : Text}
    (valid : limits.validate profile = .ok ()) (read : Chain.ofSource? limits source = some c) :
    NamesVariables c := by
  intro id member t token kind
  have among : t ∈ c.tokensOf c.order := List.mem_filterMap.mpr ⟨id, member, token⟩
  obtain ⟨before, after, split⟩ := List.append_of_mem among
  have legible := Chain.legible_of_source valid read
  rw [split, Lexer.legible_append] at legible
  exact legible.2.1.isName kind

theorem ReadFrom.assigns (read : ReadFrom c cls) (names : NamesVariables c) (member : x ∈ movable cls)
    {s : List Token} (ok : assignment c indent x.1 x.2 = .ok s) : Assigns c x (visible s) := by
  obtain ⟨ids, ts, source, span, tokens, rfl⟩ := assignment_ok ok
  obtain ⟨t, token, isVariable⟩ := Chain.tokenIs_iff.mp (read.default member).1
  have kind : t.kind = .variableName := beq_iff_eq.mp isVariable
  obtain ⟨name, isName, text⟩ := names x.1.variableId (read.default_mem member).1 t token kind
  have property : x.1.name = name := by
    rw [(read.value member).1, Chain.textOf_of_token? token, text, isName.dropWhile]
  have seen : identifier x.1.name = ⟨.identifier, name⟩ := by
    rw [property, identifier, Token.classify, isName.solid.2]
    rfl
  refine ⟨name, ids, ts, ?_, span, tokens, ?_⟩
  · rw [token, ← kind, ← text]
  · rw [seen, Token.visible_append, Token.visible_append, visible_reindent]
    rfl

theorem ReadFrom.forall_assigns (read : ReadFrom c cls) (names : NamesVariables c)
    (within : ∀ x ∈ xs, x ∈ movable cls)
    (made : xs.map (fun x => assignment c indent x.1 x.2) = statements.map .ok) :
    List.Forall₂ (Assigns c) xs (statements.map visible) := by
  induction xs generalizing statements with
  | nil =>
    obtain rfl : statements = [] := by simpa using made.symm
    exact .nil
  | cons x xs ih =>
    obtain ⟨s, statements, rfl, ok, rest⟩ := List.map_eq_cons_iff.mp made.symm
    exact .cons (read.assigns names (within x List.mem_cons_self) ok.symm)
      (ih (fun y member => within y (List.mem_cons_of_mem _ member)) rest.symm)

/-! ### The class as a whole -/

/-- The chain `d` is `c` with the defaults of the class moved. Of the nodes that stay, `left` come before
the new nodes `block` and `line`, and `right` after them. -/
structure Rewritten (c : Chain) (cls : ClassDecl) (d : Chain) (left block line right : List NodeId) :
    Prop where
  stays : left ++ right = kept c cls
  order : d.order = left ++ (block ++ (line ++ right))
  nodup : d.order.Nodup
  old : ∀ id, c.Known id → d.token? id = c.token? id
  fresh : ∀ id ∈ block ++ line, ¬ c.Known id
  tokens : ∃ tokens statements, block.map d.token? = tokens.map some ∧
    List.Forall₂ (Assigns c) (movable cls) statements ∧ visible tokens = written cls statements
  line_le : line.length ≤ 1
  /-- One whitespace node comes between the statements and the end of the constructor. -/
  body : ∀ m ∈ cls.constructor?, ∀ body ∈ m.body, ∃ blank tail,
    line ++ right = blank :: body.closer :: tail ∧ d.isWhitespace blank = true
  /-- A new constructor follows the last property and the comments on its line. -/
  property : cls.constructor? = none → line = [] ∧ ∃ p front fillers,
    cls.properties.getLast? = some p ∧ left = front ++ p.terminator :: fillers ∧
      TrailsLine c fillers right

/-- New nodes are put into a chain without the defaults of the class. -/
theorem Stripped.rewritten {e : Chain} {tokens : List Token} {block line : List NodeId}
    (stripped : Stripped c cls d l inside r) (inserted : Inserted d e left tokens right (block ++ line))
    (new : ∃ tokens statements, block.map e.token? = tokens.map some ∧
      List.Forall₂ (Assigns c) (movable cls) statements ∧ visible tokens = written cls statements)
    (short : line.length ≤ 1)
    (body : ∀ m ∈ cls.constructor?, ∀ body ∈ m.body, ∃ blank tail,
      line ++ right = blank :: body.closer :: tail ∧ e.isWhitespace blank = true)
    (property : cls.constructor? = none → line = [] ∧ ∃ p front fillers,
      cls.properties.getLast? = some p ∧ left = front ++ p.terminator :: fillers ∧
        TrailsLine c fillers right) :
    Rewritten c cls e left block line right where
  stays := by rw [← stripped.order, inserted.before]
  order := by rw [inserted.order, List.append_assoc]
  nodup := inserted.roomy.wellFormed.order_nodup
  old := fun id known => (inserted.old id (stripped.known.mpr known)).trans (stripped.tokens id)
  fresh := fun id member known => inserted.fresh id member (stripped.known.mpr known)
  tokens := new
  line_le := short
  body := body
  property := property

/-- The class has a constructor. -/
theorem Stripped.rewritten_of_body (stripped : Stripped c cls w.chain l inside r) {m : Method}
    {body : Group} (found : m ∈ cls.constructor?) (has : body ∈ m.body)
    (assigns : List.Forall₂ (Assigns c) (movable cls) (statements.map visible))
    (ok : addStatements m.start body indent statements w = .ok () w') :
    ∃ left block line right, Rewritten c cls w'.chain left block line right := by
  obtain ⟨l, inner, r, group⟩ := stripped.groupAt_body found has
  have order : w.chain.order = (l ++ body.opener :: inner.ids) ++ body.closer :: r := by
    simp [group.order]
  obtain ⟨init, spaces, line, ids, -, blank, lines, one, inserted⟩ :=
    addStatements_ok stripped.roomy order ok
  have tokens := inserted.tokens
  rw [List.map_append] at tokens
  obtain ⟨new, last, rfl, newOf, lastOf⟩ := List.map_eq_append_iff.mp tokens
  have length : last.length = line.length := by simpa using congrArg List.length lastOf
  refine ⟨init, new, last, spaces ++ body.closer :: r, stripped.rewritten inserted
    ⟨_, _, newOf, assigns, visible_body found⟩ (by omega) ?_ ?_⟩
  · intro m' found' body' has'
    obtain rfl := Option.mem_unique found found'
    obtain rfl := Option.mem_unique has has'
    -- The whitespace before the closing brace was there or is new.
    rcases lines with rfl | ⟨text, -, rfl⟩
    · obtain rfl := List.length_eq_zero_iff.mp length
      obtain ⟨x, rfl⟩ := List.length_eq_one_iff.mp one
      refine ⟨x, r, rfl, ?_⟩
      have known : w.chain.Known x :=
        stripped.roomy.wellFormed.known_of_mem_order (by simp [inserted.before])
      rw [Chain.isWhitespace, Chain.tokenIs_eq_of_token? (inserted.old x known)]
      exact blank x List.mem_cons_self
    · obtain ⟨x, rfl⟩ := List.length_eq_one_iff.mp length
      obtain rfl := List.length_eq_zero_iff.mp (Nat.succ.inj one)
      refine ⟨x, r, rfl, ?_⟩
      have token : w'.chain.token? x = some (newLine text) := (List.cons.inj lastOf).1
      rw [Chain.isWhitespace, Chain.tokenIs_of_token? token]
      exact isWhitespace_newLine
  · intro none
    rw [none] at found
    cases found

/-- The class gets a constructor. -/
theorem Stripped.rewritten_of_constructor (stripped : Stripped c cls w.chain l inside r)
    (none : cls.constructor? = none) {p : Property} (final : cls.properties.getLast? = some p)
    (assigns : List.Forall₂ (Assigns c) (movable cls) (statements.map visible)) {propertyIndent : Text}
    (ok : addConstructor cls propertyIndent indent statements w = .ok () w') :
    ∃ left block line right, Rewritten c cls w'.chain left block line right := by
  obtain ⟨member, semicolon⟩ := stripped.semicolon (List.mem_of_getLast? final)
  obtain ⟨front, behind, order⟩ := List.append_of_mem member
  obtain ⟨fillers, rest, separator, ids, rfl, trails, -, inserted⟩ :=
    addConstructor_ok stripped.roomy final semicolon order ok
  refine ⟨_, ids, [], rest, stripped.rewritten (by simpa using inserted)
    ⟨_, _, inserted.tokens, assigns, visible_constructor none⟩ (by simp) ?_ ?_⟩
  · simp [none]
  · intro _
    obtain ⟨quiet, ends, last⟩ := trails
    simp only [stripped.tokenIs] at quiet ends last
    exact ⟨rfl, p, front, fillers, final, rfl, quiet, ends, last⟩

theorem ReadFrom.rewritten (read : ReadFrom c cls) (sound : c.Sound) (names : NamesVariables c)
    (active : Active cls.members) {journal : Array Log.Notice}
    (moves : Moves cls ⟨c, journal⟩ w₁ w' indent statements) :
    ∃ left block line right, Rewritten c cls w'.chain left block line right := by
  obtain ⟨w₂, _, _, _, ok, stripped⟩ := read.stripped sound journal
  obtain rfl : w₁ = w₂ := by
    rw [moves.drops] at ok
    exact (EStateM.Result.ok.inj ok).2
  have assigns : List.Forall₂ (Assigns c) (movable cls) (statements.map visible) :=
    read.forall_assigns names (fun _ member => member) (Outcome.mapM_ok.mp moves.reads)
  rcases moves.adds with ⟨none, propertyIndent, -, adds⟩ | ⟨m, found, body, has, adds⟩
  · obtain ⟨p, final, -⟩ := exists_last_property active
    exact stripped.rewritten_of_constructor none final assigns adds
  · exact stripped.rewritten_of_body found has assigns adds

/-- A class with defaults to move, and with a body of its constructor if it has one, gets them moved
unless the chain becomes full. -/
theorem tidy_rewrites {profile : String} {limits : Limits} (valid : limits.validate profile = .ok ())
    (capacity : c.capacity = limits.nodes) (wf : c.WellFormed) (connected : c.Connected)
    (names : NamesVariables c) (all : ClassDecl.all c = .ok ds) (member : cls ∈ ds)
    (some : movable cls ≠ []) (bodies : ∀ m ∈ cls.constructor?, m.body.isSome = true)
    (journal : Array Log.Notice) :
    (∃ w left block line right, tidy cls ⟨c, journal⟩ = .ok () w ∧
      Rewritten c cls w.chain left block line right) ∨
    ∃ e w, tidy cls ⟨c, journal⟩ = .error e w ∧ e.IsLimit ∧ w.chain.capacity ≤ w.chain.size := by
  obtain ⟨narrow, -⟩ := Limits.nodes_lt_of_validate valid
  have sound : c.Sound := ⟨⟨wf, by omega⟩, connected⟩
  have read : ReadFrom c cls := (ClassDecl.mem_all wf all).mp member
  have active : Active cls.members := active_iff.mpr ⟨some, bodies⟩
  rcases (read.full sound active journal).ok_or_error with ⟨⟨⟩, w, ok⟩ | failed
  · rcases tidy_ok ok with ⟨idle, -⟩ | ⟨-, w₁, indent, statements, moves⟩
    · exact (idle active).elim
    · obtain ⟨left, block, line, right, rewritten⟩ := read.rewritten sound names active moves
      exact .inl ⟨w, left, block, line, right, ok, rewritten⟩
  · exact .inr failed

/-- Two of three defaults move into a new constructor, which comes after a comment. -/
theorem tidy_rewrites_child :
    Limits.development.validate "development" = .ok () ∧ ∃ c ds cls w left block line right,
      Chain.ofSource? .development "<?php class A extends B{static $s=1;$x=[2];$y=3;/**/}".toList =
        some c ∧ NamesVariables c ∧ ClassDecl.all c = .ok ds ∧ cls ∈ ds ∧ (movable cls).length = 2 ∧
      tidy cls ⟨c, #[]⟩ = .ok () w ∧ Rewritten c cls w.chain left block line right := by
  have valid : Limits.development.validate "development" = .ok () := by decide
  have checked : (Chain.ofSource? .development
      "<?php class A extends B{static $s=1;$x=[2];$y=3;/**/}".toList).any (fun c =>
        (ClassDecl.all c).toOption.any fun ds => ds.any fun cls => (movable cls).length == 2 &&
          cls.constructor?.isNone && (after? (tidy cls) ⟨c, #[]⟩).isSome) = true := by decide +kernel
  obtain ⟨c, read, checked⟩ := (Option.any_eq_true ..).mp checked
  obtain ⟨ds, found, checked⟩ := (Option.any_eq_true ..).mp checked
  obtain ⟨cls, member, checked⟩ := List.any_eq_true.mp checked
  simp only [Bool.and_eq_true, beq_iff_eq, Option.isNone_iff_eq_none] at checked
  obtain ⟨⟨two, none⟩, runs⟩ := checked
  obtain ⟨w, runs⟩ := Option.isSome_iff_exists.mp runs
  have all : ClassDecl.all c = .ok ds := Outcome.toOption_some.mp found
  obtain ⟨⟨wf, -⟩, connected⟩ := Chain.sound_of_source valid read
  obtain ⟨_, _, -, -, -, threaded⟩ := Chain.exists_threaded valid read
  have names := namesVariables_of_source valid read
  have some : movable cls ≠ [] := by
    intro empty
    simp [empty] at two
  have done := after?_some.mp runs
  rcases tidy_rewrites valid threaded.capacity wf connected names all member some (by simp [none]) #[] with
    ⟨w', left, block, line, right, ok, rewritten⟩ | ⟨e, w', failed, -⟩
  · rw [done] at ok
    obtain rfl := (EStateM.Result.ok.inj ok).2
    exact ⟨valid, c, ds, cls, w, left, block, line, right, read, names, all, member, two, done, rewritten⟩
  · rw [done] at failed
    cases failed

end Restyle.ConstructorDefaults

import Restyle.Proofs.Lexer.Reread
import Restyle.Proofs.Rule.Run
import Restyle.Proofs.Rule.Writing

/-!
# Reading back what the rule wrote

The tokens of a chain that was read from a source are legible, and every class in its turn keeps
them so (`Turn.legible`). The result is therefore read back, up to whitespace, unless a form feed was
copied into an indent or an operator `<<` has become the start of a heredoc.
-/

namespace Restyle
open Lexer Token

namespace Chain
variable {c d : Chain} {ids left mid right : List NodeId} {v s : NodeId} {limits : Limits}
  {profile : String} {source r : Text} {m : Mode}

theorem texts_tokensOf : texts (c.tokensOf ids) = c.textOfAll ids := by
  induction ids with
  | nil => rfl
  | cons id ids ih =>
    rw [textOfAll, List.flatMap_cons]
    cases found : c.get? id with
    | none =>
      have token : c.token? id = none := by simp [Chain.token?, found]
      rw [tokensOf, List.filterMap_cons_none token, textOf, found]
      exact ih
    | some node =>
      have token : c.token? id = some node.token := by simp [Chain.token?, found]
      rw [tokensOf_cons token, texts_cons, ih, textOf, found]
      rfl

theorem Threaded.tokensOf_order {capacity : Nat} {last : Option NodeId} {done : List Token}
    (threaded : Threaded capacity c last done) (fits : done.length ≤ 2 ^ 32) :
    c.tokensOf c.order = done := by
  refine tokensOf_eq ?_
  rw [threaded.order, NodeId.firsts, List.map_map]
  apply List.ext_getElem
  · simp
  · intro i left right
    simp only [List.length_map, List.length_range] at left
    have token := threaded.token? (.ofIndex i)
    rw [NodeId.index_ofIndex (by omega), List.getElem?_eq_getElem left] at token
    simp [token]

theorem legible_of_source (valid : limits.validate profile = .ok ())
    (read : ofSource? limits source = some c) :
    Legible limits ⟨false, false⟩ (c.tokensOf c.order) [] := by
  obtain ⟨lexemes, last, lexed, narrow, bound, threaded⟩ := exists_threaded valid read
  obtain ⟨whole, rfl⟩ := Scan.result_ok.mp lexed
  obtain ⟨pieces, all, -, legible, -⟩ := (Scan.lexes_of_run (Nat.le_refl _) whole).legible
  rw [threaded.tokensOf_order (by simp only [List.length_map]; omega)]
  change (Scan.ofSource limits source).lexemes.toList = [] ++ pieces at all
  rw [all]
  exact legible

end Chain

namespace ConstructorDefaults
open RuleM
open ClassDecl (IsDefault membersOf)
variable {c₀ c d : Chain} {ds fin todo : List ClassDecl} {cls : ClassDecl} {w w' w₁ : Workspace}
  {limits : Limits} {m : Mode} {f inside : Forest} {l r ids left mid right : List NodeId}
  {more : List Member} {x : Property × Initializer} {z : Text} {v s : NodeId} {indent : Text}
  {statements : List (List Token)}

/-! ### Marks -/

theorem exists_semicolon (semicolon : c.tokenIs (·.isPunctuation ';') s = true) :
    ∃ t, c.token? s = some t ∧ isMark t = true ∧ t.text = [';'] := by
  obtain ⟨t, token, is⟩ := Chain.tokenIs_iff.mp semicolon
  simp only [Token.isPunctuation, Bool.and_eq_true, beq_iff_eq] at is
  exact ⟨t, token, by simp [isMark, is.1], is.2⟩

theorem exists_closer (closes : c.tokenIs Token.closesGroup s = true) :
    ∃ t, c.token? s = some t ∧ isMark t = true := by
  obtain ⟨t, token, is⟩ := Chain.tokenIs_iff.mp closes
  exact ⟨t, token, by simp [isMark, kind_of_closesGroup is]⟩

/-! ### Taking defaults out -/

theorem inert_semicolon : Inert (';' :: z) := by
  intro c head
  obtain rfl := Option.some.inj head
  decide

theorem Removed.legible (removed : Removed c d (left ++ [v]) mid (s :: right))
    (named : c.tokenIs Member.isVariable v = true)
    (semicolon : c.tokenIs (·.isPunctuation ';') s = true)
    (legible : Legible limits m (c.tokensOf c.order) []) :
    Legible limits m (d.tokensOf d.order) [] := by
  obtain ⟨t, token, isVariable⟩ := Chain.tokenIs_iff.mp named
  obtain ⟨u, token', mark, text⟩ := exists_semicolon semicolon
  have kind : t.kind = .variableName := beq_iff_eq.mp isVariable
  have old : c.tokensOf c.order =
      (c.tokensOf left ++ [t]) ++ (c.tokensOf mid ++ u :: c.tokensOf right) := by
    rw [removed.before, ← Chain.tokensOf_cons token']
    simp [Chain.tokensOf, token]
  have new : d.tokensOf d.order = (c.tokensOf left ++ [t]) ++ u :: c.tokensOf right := by
    rw [removed.order, Chain.tokensOf_congr fun id _ => removed.tokens id, ← Chain.tokensOf_cons token']
    simp [Chain.tokensOf, token]
  rw [old] at legible
  rw [new]
  obtain ⟨before, behind⟩ := legible_append.mp legible
  obtain ⟨-, reads, -⟩ := legible_append.mp before
  have after : m.afterAll (c.tokensOf left ++ [t]) = ⟨true, false⟩ := by
    rw [Mode.afterAll_append]
    exact (reads.after_mark (by simp [isMark, kind])).2
  have code : (m.afterAll (c.tokensOf left ++ [t])).inCode = true := by rw [after]
  refine legible.delete code ?_ ?_ (((legible_append.mp behind).2.enter mark).2 _ code)
  · rw [texts_cons, text]
    exact inert_semicolon
  · intro t' member
    rw [List.getLast?_append, List.getLast?_singleton, Option.some_or] at member
    obtain rfl := Option.some.inj member
    simp [isLineComment, kind]

theorem drops_legible {xs : List (Property × Initializer)} (sound : w.chain.Sound)
    (named : ∀ x ∈ xs, w.chain.tokenIs Member.isVariable x.1.variableId = true ∧
      w.chain.tokenIs (·.isPunctuation ';') x.1.terminator = true)
    (legible : Legible limits m (w.chain.tokensOf w.chain.order) [])
    (ok : xs.forM (fun x => dropDefault cls x.1) w = .ok () w') :
    Legible limits m (w'.chain.tokensOf w'.chain.order) [] := by
  induction xs generalizing w with
  | nil =>
    obtain rfl := forM_nil_ok.mp ok
    exact legible
  | cons x xs ih =>
    obtain ⟨w₁, first, rest⟩ := forM_cons_ok.mp ok
    obtain ⟨left, mid, right, -, removed⟩ :=
      dropDefault_ok sound.toRoomy (sound.connected _).mp first
    obtain ⟨isVariable, semicolon⟩ := named x List.mem_cons_self
    refine ih (removed.sound sound) (fun y member => ?_) (removed.legible isVariable semicolon legible) rest
    rw [Chain.tokenIs_eq_of_token? (removed.tokens _), Chain.tokenIs_eq_of_token? (removed.tokens _)]
    exact named y (List.mem_cons_of_mem _ member)

/-! ### Statements -/

/-- Before a value there are only the sign and fillers. -/
theorem afterAll_lead (fits : f.Fits c)
    (signs : ∀ id, .atom id ∈ f.significant c → c.tokenIs (·.isOperator "=") id = true)
    (legible : Legible limits ⟨true, false⟩ (c.tokensOf f.ids) z) :
    (⟨true, false⟩ : Mode).afterAll (c.tokensOf f.ids) = ⟨true, false⟩ := by
  induction f with
  | nil => rfl
  | atom id rest ih =>
    obtain ⟨t, token⟩ := Chain.known_iff_token?.mp fits.1.1
    have after : (⟨true, false⟩ : Mode).after t = ⟨true, false⟩ := by
      cases weighty : t.isSignificant with
      | false => exact after_filler weighty
      | true =>
        have sign := signs id (Forest.mem_significant.mpr ⟨List.mem_cons_self, by
          simp [Member.isFiller, Chain.tokenIs_of_token? token, weighty]⟩)
        rw [Chain.tokenIs_of_token? token] at sign
        simp only [Token.isOperator, Bool.and_eq_true, beq_iff_eq] at sign
        rw [show t = ⟨.operator, "=".toList⟩ by rw [← sign.1, ← sign.2]]
        rfl
    rw [Forest.ids, Chain.tokensOf_cons token] at legible ⊢
    rw [Mode.afterAll_cons, after]
    have rest' := legible.2
    rw [after] at rest'
    exact ih fits.2 (fun y member => signs y (Forest.mem_significant.mpr
      ⟨List.mem_cons_of_mem _ (Forest.mem_significant.mp member).1,
        (Forest.mem_significant.mp member).2⟩)) rest'
  | group o inner e rest _ ih =>
    obtain ⟨⟨bracket, opener, closer⟩, -, fitsRest⟩ := fits
    obtain ⟨t, token, mark⟩ := exists_closer (Forest.closes_of_bracket opener closer).1
    have ids : (Forest.group o inner e rest).ids = (o :: inner.ids) ++ e :: rest.ids := rfl
    rw [ids, Chain.tokensOf_append, Chain.tokensOf_cons token] at legible ⊢
    obtain ⟨-, reads, behind⟩ := legible_append.mp legible
    rw [Mode.afterAll_append, Mode.afterAll_cons, (reads.after_mark mark).2]
    rw [(reads.after_mark mark).2] at behind
    exact ih fitsRest (fun y member => signs y (Forest.mem_significant.mpr
      ⟨List.mem_cons_of_mem _ (Forest.mem_significant.mp member).1,
        (Forest.mem_significant.mp member).2⟩)) behind

/-- Fillers up to a semicolon are in code. -/
theorem inCode_of_trail (fits : f.Fits c) (fillers : f.significant c = [])
    (semicolon : c.tokenIs (·.isPunctuation ';') s = true)
    (legible : Legible limits m (c.tokensOf (f.ids ++ s :: right)) z) : m.inCode = true := by
  induction f generalizing m with
  | nil =>
    obtain ⟨t, token, mark, -⟩ := exists_semicolon semicolon
    rw [Forest.ids, List.nil_append, Chain.tokensOf_cons token] at legible
    exact (legible.1.after_mark mark).1
  | atom id rest ih =>
    obtain ⟨t, token⟩ := Chain.known_iff_token?.mp fits.1.1
    rw [Forest.ids, List.cons_append, Chain.tokensOf_cons token] at legible
    have here : Item.atom id ∉ (Forest.atom id rest).significant c := by simp [fillers]
    have filler : t.isSignificant = false := by
      rw [Forest.mem_significant] at here
      simpa [Forest.items, Member.isFiller, Chain.tokenIs_of_token? token] using here
    cases blank : t.isWhitespace with
    | false =>
      have comment : t.isComment = true := by simpa [Token.isSignificant, blank] using filler
      simp only [Token.isComment, Bool.or_eq_true, beq_iff_eq] at comment
      refine legible.1.inCode blank ?_ ?_ <;> rcases comment with kind | kind <;> simp [kind]
    | true =>
      have later : rest.significant c = [] := by
        rw [Forest.significant, Forest.items, List.filter_cons] at fillers
        split at fillers
        · cases fillers
        · exact fillers
      exact Mode.inCode_of_after blank (ih fits.2 later legible.2)
  | group o inner e rest _ _ =>
    obtain ⟨⟨bracket, opener, -⟩, -⟩ := fits
    obtain ⟨t, token, opens⟩ := Option.bind_eq_some_iff.mp opener
    rw [Forest.ids, List.cons_append, Chain.tokensOf_cons token] at legible
    exact (legible.1.after_mark (by simp [isMark, kind_of_closer? opens])).1

theorem ReadFrom.value (read : ReadFrom c₀ cls) (member : x ∈ movable cls) :
    x.1.name = (c₀.textOf x.1.variableId).dropWhile (· == '$') ∧
      c₀.tokenIs Token.isComment x.2.last = false := by
  obtain ⟨l, inside, r, group, members⟩ := read.groupAt
  obtain ⟨done, rest, split, value⟩ := mem_movable member
  rw [members] at split
  refine ⟨ClassDecl.name_of_property (f := inside) ?_,
    ClassDecl.last_of_default group.fits.2.1 split value⟩
  rw [split]
  simp

theorem isName_of_text {name text : Text} (named : IsName name) (is : text = '$' :: name) :
    IsName (text.dropWhile (· == '$')) := by
  rw [is, named.dropWhile]
  exact named

/-- A statement can be read wherever code is, since its value was read in code. -/
theorem StandsAt.closed (stands : StandsAt c₀ c ds cls l inside r more) (sound : c.Sound)
    (base : c₀.Sound) (tokens : ∀ id, c₀.Known id → c.token? id = c₀.token? id)
    (read : ReadFrom c₀ cls) (member : x ∈ movable cls)
    (legible : Legible limits m (c.tokensOf c.order) []) (indents : indent.Indents)
    {statement : List Token} (ok : assignment c indent x.1 x.2 = .ok statement) (a : Bool) :
    Closed limits ⟨true, a⟩ statement := by
  obtain ⟨f₁, lead, core, trail, f₂, y₀, z₀, rfl, value, fitsCore, same⟩ :=
    stands.value sound base tokens member
  have known : ∀ id ∈ c₀.order, c.token? id = c₀.token? id := fun id inside =>
    tokens id (base.wellFormed.known_of_mem_order inside)
  have default : IsDefault c x.1 x.2 lead core trail := value.default.congr fun id inside => by
    refine known id ?_
    rw [value.order]
    simp only [List.mem_append, List.mem_cons] at inside ⊢
    tauto
  have fits := stands.group.fits.2.1
  simp only [Forest.fits_append, Forest.Fits] at fits
  have order : c.order = (l ++ cls.body.opener :: f₁.ids) ++ x.1.variableId :: (lead.ids ++
      (core.ids ++ (trail.ids ++ x.1.terminator :: (f₂.ids ++ cls.body.closer :: r)))) := by
    simp [stands.group.order, Forest.ids]
  have place : c.order = (l ++ cls.body.opener :: (f₁.ids ++ x.1.variableId :: lead.ids)) ++ core.ids ++
      (trail.ids ++ x.1.terminator :: (f₂.ids ++ cls.body.closer :: r)) := by
    simp [order]
  obtain ⟨ids, ts, source, span, tokensOf, rfl⟩ := assignment_ok ok
  rw [sound.wellFormed.span_of_order place default.starts default.ends] at span
  obtain rfl := Except.ok.inj span
  obtain ⟨t, token, isVariable⟩ := Chain.tokenIs_iff.mp default.named
  have kind : t.kind = .variableName := beq_iff_eq.mp isVariable
  rw [order, Chain.tokensOf_append, Chain.tokensOf_cons token, legible_append] at legible
  obtain ⟨-, reads, behind⟩ := legible
  rw [(reads.after_mark (by simp [isMark, kind])).2, Chain.tokensOf_append, legible_append] at behind
  obtain ⟨sign, equals, leads⟩ := default.sign
  rw [afterAll_lead (by simp [fits]) (fun id inside => by
    rw [leads, List.mem_singleton] at inside
    rw [Item.atom.inj inside]
    exact equals) behind.1, Chain.tokensOf_append, legible_append,
    Chain.tokensOf_eq tokensOf] at behind
  obtain ⟨-, coreReads, trailReads⟩ := behind
  have code := inCode_of_trail (by simp [fits]) default.trail default.semicolon trailReads
  have refits : Refits (reindent source indent) := refits_reindent indents
  obtain ⟨name, noComment⟩ := read.value member
  have named : IsName x.1.name := by
    obtain ⟨word, isName, text⟩ := reads.isName kind
    rw [name]
    refine isName_of_text isName ?_
    rw [← Chain.textOf_eq_of_token? (known x.1.variableId (by simp [value.order])),
      Chain.textOf_of_token? token, text]
  have last : ∀ u ∈ ts.getLast?, isLineComment u = false := by
    intro u inside
    have final : c.token? x.2.last = some u := by
      have ends := congrArg List.getLast? tokensOf
      rw [List.getLast?_map, List.getLast?_map, default.ends, Option.mem_def.mp inside] at ends
      exact Option.some.inj ends
    have lastKnown : x.2.last ∈ c₀.order := by
      rw [value.order]
      simp [List.mem_of_getLast? value.default.ends]
    rw [← Chain.tokenIs_eq_of_token? (known _ lastKnown), Chain.tokenIs_of_token? final] at noComment
    simp only [Token.isComment, Bool.or_eq_false_iff] at noComment
    rw [isLineComment, noComment.1]
    rfl
  refine closed_assignment named (fun z => ?_) (by rw [coreReads.afterAll_map refits]; exact code)
  refine coreReads.map refits inert_semicolon code fun u inside comment => ?_
  rw [last u inside] at comment
  cases comment

/-! ### Putting statements in -/

theorem inert_lineFeed : Inert ('\n' :: z) := by
  intro c head
  obtain rfl := Option.some.inj head
  decide

theorem ends_lineFeed : Comment.Ends ('\n' :: z) := by
  refine .inr ?_
  rw [Comment.endsLine_cons]
  rfl

theorem body_legible {init spaces rest : List NodeId} {closer : NodeId} {line : List Token}
    (sound : c.Sound) (closes : c.tokenIs Token.closesGroup closer = true)
    (blank : ∀ x ∈ spaces, c.isWhitespace x = true)
    (lines : line = [] ∨ ∃ text, text.Indents ∧ line = [newLine text])
    (inserted : Chain.Inserted c d init (block indent statements ++ line)
      (spaces ++ closer :: rest) ids)
    (indents : indent.Indents) (some : statements ≠ [])
    (each : ∀ s ∈ statements, ∀ a, Closed limits ⟨true, a⟩ s)
    (legible : Legible limits m (c.tokensOf c.order) []) :
    Legible limits m (d.tokensOf d.order) [] := by
  obtain ⟨u, token, mark⟩ := exists_closer closes
  have blanks : ∀ t ∈ c.tokensOf spaces, t.isWhitespace = true := by
    intro t member
    obtain ⟨id, inside, token⟩ := List.mem_filterMap.mp member
    have isBlank := blank id inside
    rw [Chain.isWhitespace, Chain.tokenIs_of_token? token] at isBlank
    exact isBlank
  have right : c.tokensOf (spaces ++ closer :: rest) = c.tokensOf spaces ++ u :: c.tokensOf rest := by
    rw [Chain.tokensOf_append, Chain.tokensOf_cons token]
  rw [inserted.before, Chain.tokensOf_append, right] at legible
  rw [inserted.tokensOf_order sound, right]
  obtain ⟨-, behind⟩ := legible_append.mp legible
  obtain ⟨code, -⟩ := behind.enter_spaces blanks mark
  generalize after : m.afterAll (c.tokensOf init) = m₁ at code behind
  obtain ⟨inCode, access⟩ := m₁
  obtain rfl : inCode = true := code
  obtain ⟨body, code'⟩ := legible_block indents rfl fun s member =>
    ⟨each s member access, each s member false⟩
  have ends : (∀ z, Legible limits ((⟨true, access⟩ : Mode).afterAll (block indent statements)) line z) ∧
      ((⟨true, access⟩ : Mode).afterAll (block indent statements ++ line)).inCode = true := by
    rw [Mode.afterAll_append]
    rcases lines with rfl | ⟨text, indents', rfl⟩
    · exact ⟨fun _ => trivial, code'⟩
    · refine ⟨fun _ => ⟨reads_newLine indents' code', trivial⟩, ?_⟩
      rw [Mode.afterAll_cons, Mode.after_whitespace isWhitespace_newLine, if_pos code']
      exact code'
  obtain ⟨first, more, rfl⟩ := List.exists_cons_of_ne_nil some
  refine legible.insert (by rw [after]) (fun z => ?_) ?_ (fun _ _ _ _ => ends_lineFeed) ?_
  · rw [after, legible_append]
    exact ⟨body _, ends.1 z⟩
  · exact inert_lineFeed
  · rw [after]
    exact (behind.enter_spaces blanks mark).2 _ ends.2

theorem spaced_separator {rest : List NodeId} {separator propertyIndent : Text}
    (separates : separator = '\n' :: '\n' :: propertyIndent ∨ ∃ next behind, rest = next :: behind ∧
      c.isWhitespace next = true ∧ separator = c.textOf next)
    (indents : propertyIndent.Indents) (legible : Legible limits m (c.tokensOf rest) z) :
    Spaced separator ∧
      ∀ z', Comment.Ends (texts (c.tokensOf rest) ++ z) → Comment.Ends (separator ++ z') := by
  rcases separates with rfl | ⟨next, behind, rfl, blank, rfl⟩
  · refine ⟨⟨rfl, fun c member => ?_⟩, fun _ _ => ends_lineFeed⟩
    rcases List.mem_cons.mp member with rfl | inside
    · rfl
    · exact (spaced_of_indents indents).2 c inside
  · obtain ⟨t, token, isBlank⟩ := Chain.tokenIs_iff.mp blank
    rw [Chain.tokensOf_cons token] at legible ⊢
    rw [Chain.textOf_of_token? token, texts_cons, List.append_assoc]
    have spaced := legible.1.spaced isBlank
    exact ⟨spaced, fun _ => spaced.ends rfl⟩

theorem constructor_legible {fillers rest : List NodeId} {separator propertyIndent : Text}
    (sound : c.Sound) (semicolon : c.tokenIs (·.isPunctuation ';') s = true)
    (quiet : ∀ x ∈ fillers, c.tokenIs Token.isSignificant x = false)
    (separates : separator = '\n' :: '\n' :: propertyIndent ∨ ∃ next behind, rest = next :: behind ∧
      c.isWhitespace next = true ∧ separator = c.textOf next)
    (indents' : propertyIndent.Indents)
    (inserted : Chain.Inserted c d (left ++ s :: fillers)
      (constructorTokens separator propertyIndent indent statements) rest ids)
    (indents : indent.Indents) (each : ∀ s ∈ statements, Closed limits ⟨true, false⟩ s)
    (legible : Legible limits m (c.tokensOf c.order) []) :
    Legible limits m (d.tokensOf d.order) [] := by
  obtain ⟨u, token, mark, -⟩ := exists_semicolon semicolon
  rw [inserted.before, Chain.tokensOf_append] at legible
  rw [inserted.tokensOf_order sound]
  obtain ⟨front, behind⟩ := legible_append.mp legible
  have after : m.afterAll (c.tokensOf (left ++ s :: fillers)) = ⟨true, false⟩ := by
    rw [Chain.tokensOf_append, Chain.tokensOf_cons token] at front ⊢
    obtain ⟨-, reads, -⟩ := legible_append.mp front
    rw [Mode.afterAll_append, Mode.afterAll_cons, (reads.after_mark mark).2]
    refine afterAll_fillers fun t member => ?_
    obtain ⟨id, inside, token⟩ := List.mem_filterMap.mp member
    have filler := quiet id inside
    rw [Chain.tokenIs_of_token? token] at filler
    exact filler
  rw [after] at behind
  obtain ⟨spaced, ends⟩ := spaced_separator separates indents' behind
  obtain ⟨written, closed⟩ := closed_constructorTokens spaced indents indents' each
  obtain ⟨y, text⟩ : ∃ y, texts (constructorTokens separator propertyIndent indent statements) =
      separator ++ y := ⟨_, rfl⟩
  refine legible.insert (by rw [after]) (fun z => by rw [after]; exact written z) ?_ ?_ ?_
  · rw [text, List.append_assoc]
    exact spaced.inert
  · rw [text, List.append_assoc]
    exact fun _ _ _ => ends _
  · rw [after, closed]
    exact behind

theorem Turn.legible (turn : Turn c₀ ds fin cls todo) (inv : Inv c₀ ds fin (cls :: todo) w.chain)
    (before : Legible limits m (w.chain.tokensOf w.chain.order) [])
    (ok : ConstructorDefaults.tidy cls w = .ok () w') :
    Legible limits m (w'.chain.tokensOf w'.chain.order) [] := by
  rcases tidy_ok ok with ⟨idle, same⟩ | ⟨active, w₁, indent, statements, moves⟩
  · rw [same]
    exact before
  · obtain ⟨l, inside, r, more, stands⟩ := turn.standing inv active moves.drops
    obtain ⟨inside', dropped⟩ := turn.dropped inv active stands moves.drops
    have sound := dropped.inv.sound
    have dropsOut : Legible limits m (w₁.chain.tokensOf w₁.chain.order) [] :=
      drops_legible inv.sound (fun x member => (inv.default (turn.read turn.mem) member).2) before
        moves.drops
    have each : ∀ s ∈ statements, ∀ a, Closed limits ⟨true, a⟩ s := by
      intro s member
      obtain ⟨x, among, ok⟩ := moves.exists_default member
      exact stands.closed inv.sound turn.base inv.tokens (turn.read turn.mem) among before
        moves.indents ok
    cases dropped.adds active moves with
    | constructor semicolon quiet separates indents inserted =>
      refine constructor_legible sound semicolon quiet separates indents inserted moves.indents ?_ dropsOut
      exact forall_of_constructor cls.hasParent closed_parentCall fun s member => each s member false
    | body closes blank lines inserted =>
      exact body_legible sound closes blank lines inserted moves.indents (moves.ne_nil active) each dropsOut

/-- The result of a run is read back, up to whitespace, exactly if no whitespace has a form feed and no
operator `<<` has become the start of a heredoc. -/
theorem result_reread_iff {profile : String} (valid : limits.validate profile = .ok ()) {source : Text}
    (read : Chain.ofSource? limits source = some c) {journal : Array Log.Notice}
    (done : rule.apply ⟨c, journal⟩ = .ok () w)
    (room : ∀ count max, (Scan.ofSource limits w.chain.render).result ≠ .error (.tokenLimit count max)) :
    (∃ lexemes, (Scan.ofSource limits w.chain.render).result = .ok lexemes ∧
        visible (lexemes.map Lexeme.toToken) = visible (w.chain.tokensOf w.chain.order)) ↔
      NoFormFeed (w.chain.tokensOf w.chain.order) ∧ NoHeredoc (w.chain.tokensOf w.chain.order) := by
  have base := Chain.sound_of_source valid read
  obtain ⟨ds, all, run⟩ := apply_ok.mp done
  have legible : Legible limits ⟨false, false⟩ (w.chain.tokensOf w.chain.order) [] :=
    (run_induction (P := fun _ d => Legible limits ⟨false, false⟩ (d.tokensOf d.order) []) base all
      (fun fin cls todo w w' turn inv before ok => turn.legible inv before ok) rfl (.start base all)
      (Chain.legible_of_source valid read) run).2
  have text : w.chain.render = texts (w.chain.tokensOf w.chain.order) := Chain.texts_tokensOf.symm
  rw [text] at room ⊢
  exact rereads_iff legible room

/-- The line break that comes behind `<<<A` makes of it a heredoc, which does not end. -/
theorem result_not_reread_heredoc :
    Limits.development.validate "development" = .ok () ∧ ∃ c w,
      Chain.ofSource? .development "<?php class A{$x=1;function __construct(){1<<<A}}".toList = some c ∧
      rule.apply ⟨c, #[]⟩ = .ok () w ∧
      (Scan.ofSource .development w.chain.render).result = .error (.openString 1) ∧
      ¬ NoHeredoc (w.chain.tokensOf w.chain.order) ∧
      ¬ ∃ lexemes, (Scan.ofSource .development w.chain.render).result = .ok lexemes ∧
        visible (lexemes.map Lexeme.toToken) = visible (w.chain.tokensOf w.chain.order) := by
  have valid : Limits.development.validate "development" = .ok () := by decide
  have checked : (Chain.ofSource? .development
      "<?php class A{$x=1;function __construct(){1<<<A}}".toList).any (fun c =>
        (after? rule.apply ⟨c, #[]⟩).any fun w =>
          decide (¬ NoHeredoc (w.chain.tokensOf w.chain.order)) &&
          (Scan.ofSource .development w.chain.render).failure == some (.openString 1)) = true := by
    decide +kernel
  obtain ⟨c, read, checked⟩ := (Option.any_eq_true ..).mp checked
  obtain ⟨w, runs, checked⟩ := (Option.any_eq_true ..).mp checked
  obtain ⟨heredoc, failed⟩ := Bool.and_eq_true_iff.mp checked
  have heredoc := of_decide_eq_true heredoc
  have done := after?_some.mp runs
  have failed : (Scan.ofSource .development w.chain.render).result = .error (.openString 1) := by
    rw [Scan.result, beq_iff_eq.mp failed]
  refine ⟨valid, c, w, read, done, failed, heredoc, fun reread => ?_⟩
  refine heredoc ((result_reread_iff valid read done fun count max full => ?_).mp reread).2
  cases failed.symm.trans full

end ConstructorDefaults

end Restyle

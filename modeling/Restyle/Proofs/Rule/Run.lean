import Restyle.Proofs.Lexer.Lossless
import Restyle.Proofs.Rule.NewConstructor

/-!
# The run of the rule

What holds before a class has its turn holds after it (`Turn.tidy`), and so along the whole run
(`run_induction`). Unless a word `class` is exposed, nothing is left to do then.
-/

namespace Restyle

namespace Chain

variable {profile : String} {limits : Limits} {source : Text} {c : Chain}

section OfSource
variable (valid : limits.validate profile = .ok ()) (read : ofSource? limits source = some c)
include valid read

theorem sound_of_source : c.Sound := by
  obtain ⟨lexemes, last, -, narrow, bound, threaded⟩ := exists_threaded valid read
  refine ⟨⟨threaded.wellFormed, ?_⟩, threaded.connected ?_⟩
  · rw [threaded.capacity]
    omega
  · rw [List.length_map]
    omega

theorem mem_order_of_source {id : NodeId} (known : c.Known id) : id ∈ c.order := by
  obtain ⟨lexemes, last, -, narrow, bound, threaded⟩ := exists_threaded valid read
  rw [threaded.order, List.length_map, NodeId.mem_firsts (by omega)]
  rw [known_iff_lt, threaded.size, List.length_map] at known
  exact known

end OfSource

end Chain

namespace ConstructorDefaults
open RuleM
open ClassDecl (HeaderAt membersOf outline)
variable {c₀ c : Chain} {ds fin todo : List ClassDecl} {cls : ClassDecl} {w w' w₁ : Workspace}
  {indent : Text} {statements : List (List Token)}

/-! ### One class -/

/-- The defaults of a class, copied into statements, are taken out and the statements put in. -/
structure Moves (cls : ClassDecl) (w w₁ w' : Workspace) (indent : Text)
    (statements : List (List Token)) : Prop where
  indents : indent.Indents
  reads : (movable cls).mapM (fun x => assignment w.chain indent x.1 x.2) = .ok statements
  drops : (movable cls).forM (fun x => dropDefault cls x.1) w = .ok () w₁
  adds : (cls.constructor? = none ∧ ∃ propertyIndent, propertyIndent.Indents ∧
      addConstructor cls propertyIndent indent statements w₁ = .ok () w') ∨
    ∃ m ∈ cls.constructor?, ∃ body ∈ m.body,
      addStatements m.start body indent statements w₁ = .ok () w'

theorem moveDefaults_ok {first : Property} {defaults : List (Property × Initializer)}
    {target : Option (NodeId × Group)} (ok : moveDefaults cls first defaults target w = .ok () w') :
    ∃ propertyIndent indent statements w₁, propertyIndent.Indents ∧ indent.Indents ∧
      defaults.mapM (fun x => assignment w.chain indent x.1 x.2) = .ok statements ∧
      defaults.forM (fun x => dropDefault cls x.1) w = .ok () w₁ ∧
      match target with
      | some (start, body) => addStatements start body indent statements w₁ = .ok () w'
      | none => addConstructor cls propertyIndent indent statements w₁ = .ok () w' := by
  unfold moveDefaults at ok
  obtain ⟨braceIndent, w₀, found, ok⟩ := bind_ok.mp ok
  obtain ⟨-, rfl⟩ := look_ok.mp found
  obtain ⟨propertyIndent, w₀, found, ok⟩ := bind_ok.mp ok
  obtain ⟨indentAt, rfl⟩ := look_ok.mp found
  have members := Chain.indents_of_indentAt indentAt
  have unit : (indentStep propertyIndent braceIndent).Indents := indents_indentStep members
  cases target with
  | none =>
    obtain ⟨indent, w₀, found, ok⟩ := bind_ok.mp ok
    obtain ⟨rfl, rfl⟩ := pure_ok.mp found
    obtain ⟨statements, w₀, found, ok⟩ := bind_ok.mp ok
    obtain ⟨reads, rfl⟩ := look_ok.mp found
    obtain ⟨⟨⟩, w₁, drops, ok⟩ := bind_ok.mp ok
    exact ⟨propertyIndent, _, statements, w₁, members, indents_append members unit, reads, drops, ok⟩
  | some place =>
    obtain ⟨indent, w₀, found, ok⟩ := bind_ok.mp ok
    obtain ⟨inBody, rfl⟩ := look_ok.mp found
    obtain ⟨statements, w₀, found, ok⟩ := bind_ok.mp ok
    obtain ⟨reads, rfl⟩ := look_ok.mp found
    obtain ⟨⟨⟩, w₁, drops, ok⟩ := bind_ok.mp ok
    exact ⟨propertyIndent, indent, statements, w₁, members, indents_statementIndent unit inBody, reads,
      drops, ok⟩

theorem tidy_ok (ok : tidy cls w = .ok () w') :
    (¬ Active cls.members ∧ w'.chain = w.chain) ∨
      Active cls.members ∧ ∃ w₁ indent statements, Moves cls w w₁ w' indent statements := by
  unfold tidy at ok
  rw [active_iff]
  cases defaults : (movable cls).head? with
  | none =>
    simp only [defaults] at ok
    obtain ⟨-, rfl⟩ := pure_ok.mp ok
    exact .inl ⟨by simp [List.head?_eq_none_iff.mp defaults], rfl⟩
  | some x =>
    have some : movable cls ≠ [] := by
      intro none
      simp [none] at defaults
    cases found : cls.constructor? with
    | none =>
      simp only [defaults, found] at ok
      obtain ⟨propertyIndent, indent, statements, w₁, members, indents, reads, drops, adds⟩ :=
        moveDefaults_ok ok
      exact .inr ⟨⟨some, by simp⟩, w₁, indent, statements, indents, reads, drops,
        .inl ⟨found, propertyIndent, members, adds⟩⟩
    | some m =>
      cases has : m.body with
      | none =>
        simp only [defaults, found, has] at ok
        obtain rfl := note_ok.mp ok
        exact .inl ⟨by simp [has], rfl⟩
      | some body =>
        simp only [defaults, found, has] at ok
        obtain ⟨_, indent, statements, w₁, -, indents, reads, drops, adds⟩ := moveDefaults_ok ok
        exact .inr ⟨⟨some, by simp [has]⟩, w₁, indent, statements, indents, reads, drops,
          .inr ⟨m, found, body, has, adds⟩⟩

theorem Moves.exists_default (moves : Moves cls w w₁ w' indent statements) {s : List Token}
    (member : s ∈ statements) :
    ∃ x ∈ movable cls, assignment w.chain indent x.1 x.2 = .ok s := by
  have made : Except.ok s ∈ (movable cls).map fun x => assignment w.chain indent x.1 x.2 := by
    rw [Outcome.mapM_ok.mp moves.reads]
    exact List.mem_map_of_mem member
  exact List.mem_map.mp made

theorem Moves.ne_nil (moves : Moves cls w w₁ w' indent statements) (active : Active cls.members) :
    statements ≠ [] := by
  rintro rfl
  exact active.1 (movable_eq ▸ List.map_eq_nil_iff.mp (Outcome.mapM_ok.mp moves.reads))

theorem tidy_of_not_active (idle : ¬ Active cls.members) (w : Workspace) :
    ∃ w', tidy cls w = .ok () w' ∧ w'.chain = w.chain := by
  rw [active_iff] at idle
  unfold tidy
  cases defaults : (movable cls).head? with
  | none => exact ⟨w, rfl, rfl⟩
  | some x =>
    have some : movable cls ≠ [] := by
      intro none
      simp [none] at defaults
    cases found : cls.constructor? with
    | none => exact (idle ⟨some, by simp [found]⟩).elim
    | some m =>
      cases has : m.body with
      | none =>
        simp only [has]
        exact ⟨_, note_ok.mpr rfl, rfl⟩
      | some body => exact (idle ⟨some, by simp [found, has]⟩).elim

theorem Inv.skip (inv : Inv c₀ ds fin (cls :: todo) c) (idle : ¬ Active cls.members) :
    Inv c₀ ds (fin ++ [cls]) todo c :=
  (inv.next fun active => (idle active).elim).finish (inv.reads cls (by simp))
    (fun active => (idle active).elim) fun active => (idle active).elim

theorem Turn.moves (turn : Turn c₀ ds fin cls todo) (inv : Inv c₀ ds fin (cls :: todo) w.chain)
    (active : Active cls.members) (moves : Moves cls w w₁ w' indent statements) :
    Inv c₀ ds (fin ++ [cls]) todo w'.chain := by
  obtain ⟨l, inside, r, more, stands⟩ := turn.standing inv active moves.drops
  obtain ⟨inside', dropped⟩ := turn.dropped inv active stands moves.drops
  have each : ∀ s ∈ statements, IsStatement s ∧ Traced (IsCopy c₀ cls) s := by
    intro s member
    obtain ⟨x, among, ok⟩ := moves.exists_default member
    exact stands.statement inv.sound turn.base inv.tokens among ok
  have some := moves.ne_nil active
  rcases moves.adds with ⟨-, propertyIndent, -, adds⟩ | ⟨m, found, body, has, adds⟩
  · exact turn.addConstructor active dropped some each adds
  · exact turn.addStatements active dropped found has some each adds

theorem filter_block : (block indent statements).filter Token.isComment =
    statements.flatten.filter Token.isComment := by
  induction statements with
  | nil => rfl
  | cons s statements ih =>
    have line : (newLine indent).isComment = false := newLine_not_comment indent
    rw [block, List.flatMap_cons, List.cons_append, List.filter_cons_of_neg (by simp [line]),
      List.filter_append, List.flatten_cons, List.filter_append]
    exact congrArg _ ih

theorem filter_constructorTokens {separator propertyIndent : Text} :
    (constructorTokens separator propertyIndent indent statements).filter Token.isComment =
      statements.flatten.filter Token.isComment := by
  have line := newLine_not_comment propertyIndent
  have space : (Token.classify .whitespace separator).isComment = false :=
    Token.isComment_classify _ (by decide) (by decide)
  have marks : ([keyword "public", ConstructorDefaults.space, keyword "function",
      ConstructorDefaults.space, identifier "__construct".toList, mark '(', mark ')'] : List Token).filter
      Token.isComment = [] := by decide
  have opener : (mark '{').isComment = false := by decide
  have closer : (mark '}').isComment = false := by decide
  rw [constructorTokens, List.filter_append, List.filter_append, filter_block]
  simp_all

/-- The statements of a class are put into a chain: in a new constructor after a semicolon, or at the
end of a body. -/
inductive Adds (cls : ClassDecl) (indent : Text) (statements : List (List Token)) (c d : Chain) : Prop
  | constructor {left fillers rest ids : List NodeId} {semi : NodeId} {separator propertyIndent : Text}
    (semicolon : c.tokenIs (·.isPunctuation ';') semi = true)
    (quiet : ∀ x ∈ fillers, c.tokenIs Token.isSignificant x = false)
    (separates : separator = '\n' :: '\n' :: propertyIndent ∨ ∃ next behind, rest = next :: behind ∧
      c.isWhitespace next = true ∧ separator = c.textOf next)
    (indents : propertyIndent.Indents)
    (inserted : Chain.Inserted c d (left ++ semi :: fillers)
      (constructorTokens separator propertyIndent indent
        (if cls.hasParent then parentCall :: statements else statements)) rest ids) :
    Adds cls indent statements c d
  | body {init spaces rest ids : List NodeId} {closer : NodeId} {line : List Token}
    (closes : c.tokenIs Token.closesGroup closer = true)
    (blank : ∀ x ∈ spaces, c.isWhitespace x = true)
    (lines : line = [] ∨ ∃ text, text.Indents ∧ line = [newLine text])
    (inserted : Chain.Inserted c d init (block indent statements ++ line)
      (spaces ++ closer :: rest) ids) :
    Adds cls indent statements c d

theorem Dropped.adds {l r : List NodeId} {inside : Forest} {more : List Member}
    (dropped : Dropped c₀ ds fin cls todo w₁.chain l inside r more) (active : Active cls.members)
    (moves : Moves cls w w₁ w' indent statements) : Adds cls indent statements w₁.chain w'.chain := by
  have sound := dropped.inv.sound
  rcases moves.adds with ⟨-, propertyIndent, indents, adds⟩ | ⟨m, found, body, has, adds⟩
  · obtain ⟨p, last, member⟩ := exists_last_property active
    obtain ⟨f₁, v, m, f₂, rfl, semicolon⟩ := dropped.property member
    have order : w₁.chain.order = (l ++ cls.body.opener :: (f₁.ids ++ v :: m.ids)) ++
        p.terminator :: (f₂.ids ++ cls.body.closer :: r) := by simp [dropped.group.order, Forest.ids]
    obtain ⟨fillers, rest, separator, ids, -, trails, separates, inserted⟩ :=
      addConstructor_ok sound.toRoomy last semicolon order adds
    exact .constructor semicolon trails.plain separates indents inserted
  · obtain ⟨f₁, inner, f₂, rfl, group⟩ := dropped.body found has
    have order : w₁.chain.order = ((l ++ cls.body.opener :: f₁.ids) ++ body.opener :: inner.ids) ++
        body.closer :: (f₂.ids ++ cls.body.closer :: r) := by simp [group.order]
    obtain ⟨bracket, opener, closer⟩ := group.fits.1
    obtain ⟨init, spaces, line, ids, -, blank, lines, -, inserted⟩ :=
      addStatements_ok sound.toRoomy order adds
    exact .body (Forest.closes_of_bracket opener closer).1 blank lines inserted

/-- New nodes are put in at one place, and the comments among them are those of the statements. -/
theorem Adds.inserted {c d : Chain} (adds : Adds cls indent statements c d) :
    ∃ left tokens right ids, Chain.Inserted c d left tokens right ids ∧
      tokens.filter Token.isComment = statements.flatten.filter Token.isComment := by
  cases adds with
  | constructor _ _ _ _ inserted =>
    refine ⟨_, _, _, _, inserted, ?_⟩
    rw [filter_constructorTokens]
    split
    · have call : parentCall.filter Token.isComment = [] := by decide
      rw [List.flatten_cons, List.filter_append, call, List.nil_append]
    · rfl
  | body _ _ lines inserted =>
    refine ⟨_, _, _, _, inserted, ?_⟩
    rw [List.filter_append, filter_block]
    rcases lines with rfl | ⟨text, -, rfl⟩
    · simp
    · simp [newLine_not_comment]

theorem Turn.tidy (turn : Turn c₀ ds fin cls todo) (inv : Inv c₀ ds fin (cls :: todo) w.chain)
    (ok : ConstructorDefaults.tidy cls w = .ok () w') : Inv c₀ ds (fin ++ [cls]) todo w'.chain := by
  rcases tidy_ok ok with ⟨idle, same⟩ | ⟨active, w₁, indent, statements, moves⟩
  · rw [same]
    exact inv.skip idle
  · exact turn.moves inv active moves

/-! ### All classes -/

/-- What holds at the start and is kept by every class in its turn holds at the end. -/
theorem run_induction {P : List ClassDecl → Chain → Prop} (base : c₀.Sound)
    (all : ClassDecl.all c₀ = .ok ds)
    (step : ∀ fin cls todo w w', Turn c₀ ds fin cls todo → Inv c₀ ds fin (cls :: todo) w.chain →
      P fin w.chain → tidy cls w = .ok () w' → P (fin ++ [cls]) w'.chain)
    (split : ds = fin ++ todo) (inv : Inv c₀ ds fin todo w.chain) (holds : P fin w.chain)
    (ok : todo.forM tidy w = .ok () w') : Inv c₀ ds ds [] w'.chain ∧ P ds w'.chain := by
  induction todo generalizing fin w with
  | nil =>
    obtain rfl := forM_nil_ok.mp ok
    rw [List.append_nil] at split
    rw [split] at inv ⊢
    exact ⟨inv, holds⟩
  | cons cls todo ih =>
    obtain ⟨w₁, first, rest⟩ := forM_cons_ok.mp ok
    have turn : Turn c₀ ds fin cls todo := ⟨base, all, split⟩
    exact ih (by simp [split]) (turn.tidy inv first) (step fin cls todo w w₁ turn inv holds first) rest

theorem inv_of_run {journal : Array Log.Notice} (base : c₀.Sound) (all : ClassDecl.all c₀ = .ok ds)
    (ok : ds.forM tidy ⟨c₀, journal⟩ = .ok () w') : Inv c₀ ds ds [] w'.chain :=
  (run_induction (P := fun _ _ => True) base all (by simp) rfl (.start base all) trivial ok).1

theorem apply_ok : rule.apply w = .ok () w' ↔
    ∃ ds, ClassDecl.all w.chain = .ok ds ∧ ds.forM tidy w = .ok () w' := by
  unfold rule
  rw [bind_ok]
  constructor
  · rintro ⟨ds, w₁, found, run⟩
    obtain ⟨all, rfl⟩ := look_ok.mp found
    exact ⟨ds, all, run⟩
  · rintro ⟨ds, all, run⟩
    exact ⟨ds, w, look_ok.mpr ⟨all, rfl⟩, run⟩

theorem forM_of_not_active (idle : ∀ cls ∈ ds, ¬ Active cls.members) (w : Workspace) :
    ∃ w', ds.forM tidy w = .ok () w' ∧ w'.chain = w.chain := by
  induction ds generalizing w with
  | nil => exact ⟨w, rfl, rfl⟩
  | cons cls ds ih =>
    obtain ⟨w₁, first, same⟩ := tidy_of_not_active (idle cls List.mem_cons_self) w
    obtain ⟨w₂, rest, same'⟩ := ih (fun cls' member => idle cls' (List.mem_cons_of_mem _ member)) w₁
    exact ⟨w₂, forM_cons_ok.mpr ⟨w₁, first, rest⟩, same'.trans same⟩

/-- When all is done the classes of the chain can be read, and there is nothing to move in them. -/
theorem Inv.classes (inv : Inv c₀ ds ds [] c) (base : c₀.Sound) (all : ClassDecl.all c₀ = .ok ds)
    (safe : ∀ k, c₀.tokenIs (·.isKeyword "class") k = true → ¬ Exposed c₀ ds k) :
    ∃ ds', ClassDecl.all c = .ok ds' ∧ ∀ cls ∈ ds', ¬ Active cls.members := by
  have wf := inv.sound.wellFormed
  obtain ⟨ds', found⟩ := ClassDecl.all_isOk wf (by
    intro before k header b rest at'
    obtain ⟨l, inside, e, r, group⟩ := inv.closed _ _ _ _ _ at'
    exact ⟨inside, e, group.opens wf⟩)
  refine ⟨ds', found, fun cls member active => ?_⟩
  obtain ⟨before, k, header, b, inside, e, rest, at', rfl⟩ :=
    (ClassDecl.mem_all wf found).mp member
  have group : GroupAt c (before ++ k :: header) b inside e rest := ⟨by simp [at'.order], at'.fits⟩
  have hidden : ¬ Exposed c₀ ds k := by
    intro exposed
    refine safe k ?_ exposed
    rw [← Chain.tokenIs_eq_of_token? (inv.tokens k (base.wellFormed.known_of_mem_order exposed.1))]
    exact at'.keyword
  refine inv.inactive base all at'.headerAt hidden group ?_
  rw [outline_eq, active_rename]
  exact active

/-- A second run finds nothing to do, unless braces to which the first one added statements are in the
header of a class. -/
theorem second_run_of_not_exposed {profile : String} {limits : Limits}
    (valid : limits.validate profile = .ok ()) {source : Text} {c : Chain}
    (read : Chain.ofSource? limits source = some c) (all : ClassDecl.all c = .ok ds)
    (safe : ∀ k, c.tokenIs (·.isKeyword "class") k = true → ¬ Exposed c ds k)
    {journal journal' : Array Log.Notice} (done : rule.apply ⟨c, journal⟩ = .ok () w) :
    ∃ w', rule.apply ⟨w.chain, journal'⟩ = .ok () w' ∧ w'.chain = w.chain := by
  have base := Chain.sound_of_source valid read
  obtain ⟨ds', all', run⟩ := apply_ok.mp done
  obtain rfl := Except.ok.inj (all.symm.trans all')
  have inv := inv_of_run base all run
  obtain ⟨ds', again, idle⟩ := inv.classes base all safe
  obtain ⟨w', rest, same⟩ := forM_of_not_active idle ⟨w.chain, journal'⟩
  exact ⟨w', apply_ok.mpr ⟨ds', again, rest⟩, same⟩

/-- The statement goes to the end of a constructor, whose braces no header has. -/
theorem second_run_of_constructor :
    Limits.development.validate "development" = .ok () ∧ ∃ c ds w w',
      Chain.ofSource? .development "<?php class A{$x=1;function __construct(){}}".toList = some c ∧
      ClassDecl.all c = .ok ds ∧
      (∀ k, c.tokenIs (·.isKeyword "class") k = true → ¬ Exposed c ds k) ∧
      rule.apply ⟨c, #[]⟩ = .ok () w ∧
      rule.apply ⟨w.chain, #[]⟩ = .ok () w' ∧ w'.chain = w.chain := by
  have valid : Limits.development.validate "development" = .ok () := by decide
  have checked : (Chain.ofSource? .development
      "<?php class A{$x=1;function __construct(){}}".toList).any (fun c =>
        (ClassDecl.all c).toOption.any (fun ds => decide (∀ k ∈ c.order,
          c.tokenIs (·.isKeyword "class") k = true → ∀ d ∈ ds, ∀ m ∈ d.constructor?, ∀ body ∈ m.body,
            body.opener ∉ (ClassDecl.header c k).toList ∧
            body.closer ∉ (ClassDecl.header c k).toList)) &&
        (after? rule.apply ⟨c, #[]⟩).isSome) = true := by decide +kernel
  obtain ⟨c, read, checked⟩ := (Option.any_eq_true ..).mp checked
  obtain ⟨checked, succeeds⟩ := Bool.and_eq_true_iff.mp checked
  obtain ⟨ds, all, checked⟩ := (Option.any_eq_true ..).mp checked
  obtain ⟨w, runs⟩ := Option.isSome_iff_exists.mp succeeds
  have safe : ∀ k, c.tokenIs (·.isKeyword "class") k = true → ¬ Exposed c ds k := by
    rintro k keyword ⟨member, o, e, ⟨d, inside, -, m, found, body, has, rfl, rfl⟩, reached⟩
    obtain ⟨first, last⟩ := of_decide_eq_true checked k member keyword d inside m found body has
    exact reached.elim first last
  have all : ClassDecl.all c = .ok ds := Outcome.toOption_some.mp all
  have done := after?_some.mp runs
  obtain ⟨w', again, same⟩ := second_run_of_not_exposed valid read all safe done
  exact ⟨valid, c, ds, w, w', read, all, safe, done, again, same⟩

end ConstructorDefaults

end Restyle

import Restyle.Proofs.Chain.Lifecycle
import Restyle.Rule.ConstructorDefaults

/-!
# Rules that work by commands

A rule may be any computation on a workspace. What a pass relies on is that a rule changes the
chain by commands alone (`ByCommands`), and, where two runs are compared, that what it does depends
on the chain alone (`ByChain`). Both hold of every rule that is put together from look-ups, edits
and notices (`Works`), as `ConstructorDefaults.rule` is.
-/

namespace Restyle

namespace RuleM
variable {α β : Type} {x : RuleM α} {f : α → RuleM β} {w : Workspace}

/-- How a computation ends and the chain that it leaves behind, without the journal. -/
def outcome (x : RuleM α) (w : Workspace) : Except ChainError α × Chain :=
  match x w with
  | .ok a w' => (.ok a, w'.chain)
  | .error e w' => (.error e, w'.chain)

/-- The chain is changed by commands alone, which may well depend on what is found on the way. -/
def ByCommands (x : RuleM α) : Prop :=
  ∀ w, ∃ history, (outcome x w).2 = w.chain.afterAll history

def ByChain (x : RuleM α) : Prop :=
  ∀ c journal journal', outcome x ⟨c, journal⟩ = outcome x ⟨c, journal'⟩

theorem outcome_of_ok {a : α} {w' : Workspace} (done : x w = .ok a w') :
    outcome x w = (.ok a, w'.chain) := by
  simp [outcome, done]

theorem outcome_of_error {e : ChainError} {w' : Workspace} (failed : x w = .error e w') :
    outcome x w = (.error e, w'.chain) := by
  simp [outcome, failed]

theorem outcome_bind_of_ok {a : α} {w' : Workspace} (done : x w = .ok a w') :
    outcome (x >>= f) w = outcome (f a) w' := by
  simp [outcome, bind, EStateM.bind, done]

theorem outcome_bind_of_error {e : ChainError} {w' : Workspace} (failed : x w = .error e w') :
    outcome (x >>= f) w = (.error e, w'.chain) := by
  simp [outcome, bind, EStateM.bind, failed]

theorem outcome_look (query : Chain → Except ChainError α) (w : Workspace) :
    outcome (look query) w = (query w.chain, w.chain) := by
  cases found : query w.chain <;> simp [outcome, look, found]

theorem outcome_edit (e : Edit α) (w : Workspace) :
    outcome (edit e) w = match e w.chain with
      | .ok a d => (.ok a, d)
      | .error err d => (.error err, d) := by
  cases made : e w.chain <;> simp [outcome, edit, made]

theorem ByCommands.bind (first : ByCommands x) (rest : ∀ a, ByCommands (f a)) :
    ByCommands (x >>= f) := by
  intro w
  obtain ⟨history, left⟩ := first w
  cases made : x w with
  | ok a w₁ =>
    have here : w₁.chain = w.chain.afterAll history := by rwa [outcome_of_ok made] at left
    obtain ⟨later, right⟩ := rest a w₁
    exact ⟨history ++ later, by rw [outcome_bind_of_ok made, right, here, Chain.afterAll_append]⟩
  | error e w₁ =>
    rw [outcome_of_error made] at left
    exact ⟨history, by rw [outcome_bind_of_error made, left]⟩

theorem ByChain.bind (first : ByChain x) (rest : ∀ a, ByChain (f a)) : ByChain (x >>= f) := by
  intro c journal journal'
  have same := first c journal journal'
  cases made : x ⟨c, journal⟩ with
  | ok a w =>
    cases made' : x ⟨c, journal'⟩ with
    | ok a' w' =>
      rw [outcome_of_ok made, outcome_of_ok made'] at same
      obtain ⟨rfl, chains⟩ : a = a' ∧ w.chain = w'.chain := by simpa using same
      rw [outcome_bind_of_ok made, outcome_bind_of_ok made']
      obtain ⟨d, left⟩ := w
      obtain ⟨d', right⟩ := w'
      obtain rfl : d = d' := chains
      exact rest a d left right
    | error e w' => simp [outcome_of_ok made, outcome_of_error made'] at same
  | error e w =>
    cases made' : x ⟨c, journal'⟩ with
    | ok a' w' => simp [outcome_of_error made, outcome_of_ok made'] at same
    | error e' w' =>
      rw [outcome_of_error made, outcome_of_error made'] at same
      rw [outcome_bind_of_error made, outcome_bind_of_error made']
      simpa using same

/-- What holds of all that is put together from look-ups, edits and notices. -/
structure Works (x : RuleM α) : Prop where
  byCommands : ByCommands x
  byChain : ByChain x

namespace Works

theorem bind (first : Works x) (rest : ∀ a, Works (f a)) : Works (x >>= f) where
  byCommands := first.byCommands.bind fun a => (rest a).byCommands
  byChain := first.byChain.bind fun a => (rest a).byChain

theorem pure (a : α) : Works (Pure.pure a : RuleM α) where
  byCommands := fun _ => ⟨[], rfl⟩
  byChain := fun _ _ _ => rfl

theorem look (query : Chain → Except ChainError α) : Works (RuleM.look query) where
  byCommands := fun w => ⟨[], by rw [outcome_look]; rfl⟩
  byChain := fun c _ _ => by rw [outcome_look, outcome_look]

theorem note (n : Log.Notice) : Works (RuleM.note n) where
  byCommands := fun _ => ⟨[], rfl⟩
  byChain := fun _ _ _ => rfl

/-- An edit works if it leaves behind what some command does. -/
theorem edit {e : Edit α} (command : Command)
    (leaves : ∀ c, (∃ a, e c = .ok a (c.after command)) ∨
      ∃ error, e c = .error error (c.after command)) : Works (RuleM.edit e) where
  byCommands := fun w => ⟨[command], by
    rw [outcome_edit]
    rcases leaves w.chain with ⟨a, done⟩ | ⟨error, failed⟩
    · rw [done]
      rfl
    · rw [failed]
      rfl⟩
  byChain := fun c _ _ => by rw [outcome_edit, outcome_edit]

theorem create (token : Token) : Works (RuleM.edit (Chain.create token)) := by
  refine .edit (.create token) fun c => ?_
  simp only [Chain.after, Command.run, Bind.bind, EStateM.bind, Pure.pure, EStateM.pure]
  cases Chain.create token c with
  | ok id d => exact .inl ⟨id, rfl⟩
  | error error d => exact .inr ⟨error, rfl⟩

/-- All edits but that of a new node are commands as they are. -/
theorem command (command : Command) {e : Edit Unit} (run : command.run = do e; return none) :
    Works (RuleM.edit e) :=
  .edit command fun _ => (Chain.after_of_run command run).imp_left fun done => ⟨(), done⟩

theorem forM {g : α → RuleM Unit} (each : ∀ a, Works (g a)) (l : List α) : Works (l.forM g) := by
  induction l with
  | nil => exact .pure ()
  | cons a l ih => exact .bind (each a) fun _ => ih

end Works

end RuleM

namespace ConstructorDefaults
open RuleM

theorem works_putBefore (anchor : NodeId) (token : Token) : Works (putBefore anchor token) :=
  .bind (.create token) fun id => .command (.insertBefore anchor id) rfl

theorem works_putAllAfter (anchor : NodeId) (tokens : List Token) :
    Works (putAllAfter anchor tokens) := by
  induction tokens generalizing anchor with
  | nil => exact .pure ()
  | cons t rest ih =>
    exact .bind (.create t) fun id => .bind (.command (.insertAfter anchor id) rfl) fun _ => ih id

theorem works_dropDefault (d : ClassDecl) (p : Property) : Works (dropDefault d p) :=
  .bind (.look _) fun first => .bind (.look _) fun last =>
    .bind (.command (.removeSpan first last) rfl) fun _ => .note _

theorem works_closingLine (body : Group) (headIndent : Text) : Works (closingLine body headIndent) := by
  refine .bind (.look _) fun before => .bind (.look _) fun token => ?_
  split
  · exact .pure before
  · exact .bind (.create _) fun id => .bind (.command (.insertBefore body.closer id) rfl) fun _ =>
      .pure id

theorem works_addStatements (start : NodeId) (body : Group) (indent : Text)
    (statements : List (List Token)) : Works (addStatements start body indent statements) :=
  .bind (.look _) fun headIndent => .bind (works_closingLine body headIndent) fun anchor =>
    .forM (works_putBefore anchor) _

theorem works_addConstructor (d : ClassDecl) (propertyIndent indent : Text)
    (statements : List (List Token)) :
    Works (addConstructor d propertyIndent indent statements) := by
  unfold addConstructor
  split
  · exact .pure ()
  · exact .bind (.look _) fun anchor => .bind (.look _) fun _ => works_putAllAfter anchor _

theorem works_moveDefaults (d : ClassDecl) (first : Property)
    (defaults : List (Property × Initializer)) (target : Option (NodeId × Group)) :
    Works (moveDefaults d first defaults target) := by
  cases target with
  | none =>
    refine .bind (.look _) fun _ => .bind (.look _) fun _ => .bind (.pure _) fun _ =>
      .bind (.look _) fun _ => .bind (.forM (fun moved => ?_) defaults) fun _ =>
        works_addConstructor d _ _ _
    exact works_dropDefault d moved.1
  | some target =>
    refine .bind (.look _) fun _ => .bind (.look _) fun _ => .bind (.look _) fun _ =>
      .bind (.look _) fun _ => .bind (.forM (fun moved => ?_) defaults) fun _ =>
        works_addStatements _ _ _ _
    exact works_dropDefault d moved.1

theorem works_tidy (d : ClassDecl) : Works (tidy d) := by
  unfold tidy
  dsimp only
  split
  · exact .pure ()
  · split
    · exact works_moveDefaults _ _ _ _
    · split
      · exact works_moveDefaults _ _ _ _
      · exact .note _

theorem works_apply : Works rule.apply := .bind (.look _) fun _ => .forM works_tidy _

end ConstructorDefaults

end Restyle

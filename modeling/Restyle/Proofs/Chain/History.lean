import Restyle.Chain.Command
import Restyle.Limits.Build
import Restyle.Proofs.Chain.Join
import Restyle.Proofs.Chain.OfTokens

/-!
# What every history keeps

One command keeps a chain well-formed (`WellFormed.after`), whether it succeeds or fails and
whatever nodes it names. So every chain that any history comes to is well-formed
(`wellFormed_of_history`).
-/

namespace Restyle
open Outcome

/-- All commands but one: a node put after itself would be its own neighbor. -/
def Command.Proper : Command → Prop
  | insertAfter id fresh => id ≠ fresh
  | _ => True

instance : DecidablePred Command.Proper
  | .insertAfter id fresh => inferInstanceAs (Decidable (id ≠ fresh))
  | .create _ | .join _ _ | .replace _ _ | .insertBefore _ _ | .remove _ | .removeSpan _ _ =>
    .isTrue trivial

/-- A build only accepts tables whose places fit into a name. -/
theorem Limits.nodes_lt_of_validate {profile : String} {limits : Limits}
    (valid : limits.validate profile = .ok ()) :
    limits.nodes < 2 ^ 32 ∧ limits.tokens ≤ limits.nodes := by
  simp only [validate, check_ok, last_check_ok] at valid
  obtain ⟨-, narrow, -, tokens, -⟩ := valid
  exact ⟨Nat.lt_of_not_ge narrow, Nat.le_of_not_gt tokens⟩

namespace Chain
variable {c : Chain}

/-- A command that makes an edit ends like the edit. -/
theorem after_of_run (command : Command) {e : Edit Unit} (run : command.run = do e; return none) :
    e c = .ok () (c.after command) ∨ ∃ error, e c = .error error (c.after command) := by
  simp only [after, run, bind, EStateM.bind, pure, EStateM.pure]
  cases e c with
  | ok u d => exact .inl rfl
  | error error d => exact .inr ⟨error, rfl⟩

theorem after_create (token : Token) :
    c.after (.create token) = c.push token ∨ c.after (.create token) = c := by
  simp only [after, Command.run, bind, EStateM.bind, pure, EStateM.pure]
  cases created : create token c with
  | ok id d => exact .inl (create_ok.mp created).2.2
  | error error d => exact .inr (create_error created)

/-- A command keeps a chain well-formed. -/
theorem WellFormed.after {command : Command} (wf : c.WellFormed) (proper : command.Proper) :
    (c.after command).WellFormed := by
  cases command with
  | create token =>
    rcases after_create (c := c) token with same | same
    · rw [same]
      exact wf.push token
    · rwa [same]
  | join a b =>
    rcases after_of_run (c := c) (.join a b) rfl with done | ⟨error, failed⟩
    · exact wf.join_wellFormed done
    · rwa [commit_error failed]
  | replace id fresh =>
    rcases after_of_run (c := c) (.replace id fresh) rfl with done | ⟨error, failed⟩
    · obtain ⟨p, -, site, spliced⟩ := wf.replace_spliced done
      exact spliced.wellFormed wf site
    · rwa [commit_error failed]
  | insertBefore id fresh =>
    rcases after_of_run (c := c) (.insertBefore id fresh) rfl with done | ⟨error, failed⟩
    · obtain ⟨p, -, site, spliced⟩ := wf.insertBefore_spliced done
      exact spliced.wellFormed wf site
    · rwa [commit_error failed]
  | insertAfter id fresh =>
    rcases after_of_run (c := c) (.insertAfter id fresh) rfl with done | ⟨error, failed⟩
    · obtain ⟨site, spliced⟩ := wf.insertAfter_spliced proper done
      exact spliced.wellFormed wf site
    · rwa [commit_error failed]
  | remove id =>
    rcases after_of_run (c := c) (.remove id) (e := removeSpan id id) rfl
      with done | ⟨error, failed⟩
    · obtain ⟨p, removed, -, -, site, spliced⟩ := wf.removeSpan_spliced done
      exact spliced.wellFormed wf site
    · rwa [commit_error failed]
  | removeSpan first last =>
    rcases after_of_run (c := c) (.removeSpan first last) rfl with done | ⟨error, failed⟩
    · obtain ⟨p, removed, -, -, site, spliced⟩ := wf.removeSpan_spliced done
      exact spliced.wellFormed wf site
    · rwa [commit_error failed]

theorem WellFormed.afterAll {history : List Command} (wf : c.WellFormed)
    (proper : ∀ command ∈ history, command.Proper) : (c.afterAll history).WellFormed := by
  induction history generalizing c with
  | nil => exact wf
  | cons command rest ih =>
    exact ih (wf.after (proper command (by simp))) fun other member => proper other (by simp [member])

def IsStart (limits : Limits) (c : Chain) : Prop :=
  c = { capacity := limits.nodes } ∨ ∃ tokens, ofTokens limits.nodes tokens = .ok c

theorem IsStart.wellFormed {limits : Limits} (start : c.IsStart limits)
    (fits : limits.nodes ≤ 2 ^ 32) : c.WellFormed := by
  rcases start with rfl | ⟨tokens, ok⟩
  · exact (threaded_nil limits.nodes).wellFormed
  · obtain ⟨last, threaded⟩ := ofTokens_threaded fits ok
    exact threaded.wellFormed

/-- Chains start well-formed, every command keeps them so, and hence every history does. -/
theorem wellFormed_of_history {profile : String} {limits : Limits}
    (valid : limits.validate profile = .ok ()) :
    (∀ c : Chain, c.IsStart limits → c.WellFormed) ∧
    (∀ (c : Chain) (command : Command), c.WellFormed → command.Proper →
      (c.after command).WellFormed) ∧
    ∀ (c : Chain) (history : List Command), c.IsStart limits →
      (∀ command ∈ history, command.Proper) → (c.afterAll history).WellFormed := by
  have fits := (Limits.nodes_lt_of_validate valid).1
  refine ⟨?_, ?_, ?_⟩
  · intro c start
    exact start.wellFormed (by omega)
  · intro c command wf proper
    exact wf.after proper
  · intro c history start proper
    exact (start.wellFormed (by omega)).afterAll proper

/-- Nodes put after a detached one, a join that strands them, and a node put after an orphan. -/
theorem wellFormed_of_detached_history :
    Limits.development.validate "development" = .ok () ∧
    (afterAll { capacity := Limits.development.nodes } [
      .create (.classify .identifier ['a']), .create (.classify .identifier ['b']),
      .create (.classify .identifier ['c']), .create (.classify .identifier ['d']),
      .insertAfter (.ofIndex 0) (.ofIndex 1), .join (.ofIndex 2) (.ofIndex 3),
      .insertAfter (.ofIndex 0) (.ofIndex 9), .removeSpan (.ofIndex 2) (.ofIndex 3)]).WellFormed :=
  ⟨by decide, (wellFormed_of_history (show Limits.development.validate "development" = .ok () by
    decide)).2.2 _ _ (.inl rfl) (by decide)⟩

end Chain

end Restyle

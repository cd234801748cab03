import Restyle.Proofs.Pass.Accounting

/-!
# A pass over its own output

The check at the end of a pass applies each rule once to a chain of the output. A second pass over
the output starts from an equal chain, so each of its rules comes to rest in one round and the text
stays (`verified_output_fixed`).
-/

namespace Restyle
open Log (Notice)
open Outcome

/-- A rule that goes by the chain does the same with another journal. -/
theorem RuleM.ByChain.ok {α : Type} {x : RuleM α} (byChain : ByChain x) {c d : Chain} {a : α}
    {journal journal' : Array Notice} (done : x ⟨c, journal⟩ = .ok a ⟨d, journal'⟩)
    (left : Array Notice) : ∃ left', x ⟨c, left⟩ = .ok a ⟨d, left'⟩ := by
  have same := byChain c journal left
  rw [outcome_of_ok done] at same
  cases made : x ⟨c, left⟩ with
  | ok a' w =>
    rw [outcome_of_ok made] at same
    obtain ⟨e, left'⟩ := w
    cases same
    exact ⟨left', rfl⟩
  | error e w =>
    rw [outcome_of_error made] at same
    cases same

namespace Pass
variable {limits : Limits} {settings : Settings} {rule : Rule} {rules : List Rule}
  {runs : List RuleRun} {c d : Chain} {journal journal' : Array Notice} {source output : Text}

/-! ### The check -/

theorem checkSettled_cons_ok : checkSettled (rule :: rules) c journal = .ok () journal' ↔
    ∃ d journal₁, rule.apply ⟨c, journal⟩ = .ok () ⟨d, journal₁⟩ ∧ d.edits ≤ c.edits ∧
      checkSettled rules d journal₁ = .ok () journal' := by
  simp only [checkSettled, state_bind_ok, applyRule_ok]
  constructor
  · rintro ⟨d, journal₁, applied, rest⟩
    split at rest
    · cases rest
    · exact ⟨d, journal₁, applied, by omega, rest⟩
  · rintro ⟨d, journal₁, applied, idle, rest⟩
    refine ⟨d, journal₁, applied, ?_⟩
    rwa [if_neg (by omega)]

theorem verify_ok (verified : verify limits rules output journal = .ok () journal') :
    ∃ c journal₁ journal₂, Chain.ofSource? limits output = some c ∧
      checkSettled rules c journal₁ = .ok () journal₂ := by
  simp only [verify, state_bind_ok] at verified
  obtain ⟨scan, _, lexed, c, journal₁, built, ⟨⟩, journal₂, checked, -⟩ := verified
  exact ⟨c, journal₁, journal₂, ofSource?_of_build lexed built, checked⟩

/-- Rules that pass the check come to rest in one round each, whatever the journal holds. They may
have made nodes, but no edits. -/
theorem runRules_of_checkSettled (rounds : 0 < limits.rounds)
    (works : ∀ rule ∈ rules, RuleM.Works rule.apply)
    (checked : checkSettled rules c journal = .ok () journal') :
    ∃ d history, d = c.afterAll history ∧ d.edits ≤ c.edits ∧ ∀ left, ∃ left',
      runRules limits settings.fixing rules c left =
        .ok (rules.map fun rule => ⟨rule.name, 1, 0⟩, d) left' := by
  induction rules generalizing c journal with
  | nil => exact ⟨c, [], rfl, Nat.le_refl _, fun left => ⟨left, rfl⟩⟩
  | cons rule rules ih =>
    obtain ⟨here, others⟩ := List.forall_mem_cons.mp works
    obtain ⟨e, journal₁, applied, idle, rest⟩ := checkSettled_cons_ok.mp checked
    obtain ⟨history, reached, -⟩ := edits_le_of_apply here.byCommands applied
    obtain ⟨d, later, ends, bound, runs⟩ := ih others rest
    refine ⟨d, history ++ later, ?_, Nat.le_trans bound idle, fun left => ?_⟩
    · rw [ends, Chain.afterAll_append, ← reached]
    obtain ⟨fuel, succ⟩ : ∃ fuel, limits.rounds = fuel + 1 := ⟨limits.rounds - 1, by omega⟩
    obtain ⟨left₁, again⟩ := here.byChain.ok applied left
    obtain ⟨left₂, settled⟩ :=
      settle_of_idle limits settings.fixing fuel { rule := rule.name } again idle
    obtain ⟨left₃, ran⟩ := runs left₂
    exact ⟨left₃, runRules_cons_ok.mpr ⟨_, e, left₂, _, d, by rw [succ]; exact settled, ran, rfl⟩⟩

/-! ### The second pass -/

/-- A pass whose rules leave the text of the source as it is ends well, and without a check. -/
theorem run_of_render_eq {label : String} (few : rules.length ≤ limits.rules)
    (read : Chain.ofSource? limits source = some c)
    (ran : ∀ left, ∃ left', runRules limits settings.fixing rules c left = .ok (runs, d) left')
    (same : d.render = source) (journal : Array Notice) :
    ∃ r journal', Pass.run limits settings rules label source journal = .ok r journal' ∧
      r.output = source ∧ r.changed = false ∧ r.runs = runs := by
  obtain ⟨lexemes, lexed, built⟩ := Chain.exists_lexemes read
  obtain ⟨whole, rfl⟩ := Scan.result_ok.mp lexed
  unfold Pass.run
  rw [if_neg (Nat.not_lt.mpr few)]
  obtain ⟨journal₁, first⟩ := lex_isOk.mpr ⟨rfl, whole⟩
  obtain ⟨journal₂, second⟩ := build_isOk.mpr built
  obtain ⟨journal₃, third⟩ := ran _
  refine ⟨⟨source, false, runs, .ofLexemes settings.lexical (Scan.ofSource limits source).lexemes,
    (Scan.ofSource limits source).lexemes.size⟩, journal₃, ?_, rfl, rfl, rfl⟩
  refine state_bind_ok.mpr ⟨(), _, rfl, state_bind_ok.mpr ⟨_, journal₁, first,
    state_bind_ok.mpr ⟨c, journal₂, second, state_bind_ok.mpr ⟨(), _, rfl,
      state_bind_ok.mpr ⟨(runs, d), journal₃, third, ?_⟩⟩⟩⟩⟩
  simp [same, pure, EStateM.pure]

end Pass

/-- With the check on, the output of a pass is a fixed point of the pass. A second pass over it ends
well and changes nothing, and if the first one changed something, each rule of the second comes to
rest in one round. -/
theorem verified_output_fixed {profile : String} {s s' : Log.Session}
    (valid : s.limits.validate profile = .ok ()) (same : s'.limits = s.limits) {rules : List Rule}
    (works : ∀ rule ∈ rules, RuleM.Works rule.apply) {settings : Settings}
    (recheck : settings.fixing.recheck = true) {duration duration' label : String} {source : Text}
    {r : Outcome} (fixed : (s.fix duration settings rules label source).1 = .ok r) :
    ∃ r₂, (s'.fix duration' settings rules label r.output).1 = .ok r₂ ∧ r₂.output = r.output ∧
      r₂.changed = false ∧ (r.changed = true → r₂.runs = rules.map fun rule => ⟨rule.name, 1, 0⟩) := by
  obtain ⟨journal, done⟩ := Log.Session.fix_ok.mp fixed
  obtain ⟨few, start, final, -, journal₁, -, -, -, changed, verified⟩ := Pass.run_ok done
  cases changes : r.changed with
  | false =>
    -- The second pass is the first one over again.
    have unchanged : r.output = source := by simpa [changes] using changed
    refine ⟨r, Log.Session.fix_ok.mpr ⟨journal, ?_⟩, rfl, changes, nofun⟩
    rw [same, unchanged, done]
  | true =>
    obtain ⟨journal₂, checked⟩ := verified changes recheck
    obtain ⟨c, _, _, read, settled⟩ := Pass.verify_ok checked
    obtain ⟨d, history, reached, idle, ran⟩ :=
      Pass.runRules_of_checkSettled (Limits.rounds_pos_of_validate valid) works settled
    obtain ⟨lexemes, last, -, -, -, threaded⟩ := Chain.exists_threaded valid read
    have render : d.render = r.output := by
      rw [reached] at idle ⊢
      rw [(threaded.wellFormed.render_afterAll idle).2, Chain.render_of_source valid read]
    obtain ⟨r₂, journal₃, again, output, unchanged, runs⟩ :=
      Pass.run_of_render_eq few read ran render #[]
    exact ⟨r₂, Log.Session.fix_ok.mpr ⟨journal₃, same ▸ again⟩, output, unchanged, fun _ => runs⟩

/-- The shipped rule moves a default, and has nothing left to move in what it wrote. -/
theorem verified_output_fixed_of_constructor :
    ∃ s : Log.Session, s.limits.validate "development" = .ok () ∧
      (∀ rule ∈ Rule.shipped, RuleM.Works rule.apply) ∧
      ({} : Environment).settings.fixing.recheck = true ∧
      ∃ r r₂ : Outcome, (s.fix "0" ({} : Environment).settings Rule.shipped Pass.anonymous
          "<?php class A{$x=1;function __construct(){}}".toList).1 = .ok r ∧ r.changed = true ∧
        (s.fix "1" ({} : Environment).settings Rule.shipped Pass.anonymous r.output).1 = .ok r₂ ∧
        r₂.output = r.output ∧ r₂.changed = false ∧
        r₂.runs = [⟨"default_values_in_constructor", 1, 0⟩] := by
  let s : Log.Session :=
    { limits := .development, settings := ({} : Environment).logging
      service := .ofSettings ({} : Environment).logging }
  have valid : s.limits.validate "development" = .ok () := by decide
  have works : ∀ rule ∈ Rule.shipped, RuleM.Works rule.apply := by
    simpa [Rule.shipped] using ConstructorDefaults.works_apply
  have recheck : ({} : Environment).settings.fixing.recheck = true := by decide
  have checked : ((s.fix "0" ({} : Environment).settings Rule.shipped Pass.anonymous
      "<?php class A{$x=1;function __construct(){}}".toList).1.toOption.any (·.changed)) = true := by
    decide +kernel
  obtain ⟨r, made, changed⟩ := (Option.any_eq_true ..).mp checked
  have fixed := toOption_some.mp made
  obtain ⟨r₂, again, output, unchanged, runs⟩ := verified_output_fixed valid rfl works recheck fixed
  exact ⟨s, valid, works, recheck, r, r₂, fixed, changed, again, output, unchanged, runs changed⟩

end Restyle

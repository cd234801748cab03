import Restyle.Pass.Run
import Restyle.Proofs.Lexer.Lossless
import Restyle.Proofs.Rule.Commands
import Restyle.Rule.Shipped

/-!
# What a pass counts

The edits that a pass reports are those its chain has counted, and a rule that is reported without
edits was applied once. A rule is given up exactly when it edits in every round it may have
(`settle_unsettled_iff`). All of it holds of any rules that work by commands (`edit_accounting`).
-/

namespace Restyle
open Log (Notice)
open Outcome

/-- A build only accepts limits that let a rule be applied. -/
theorem Limits.rounds_pos_of_validate {profile : String} {limits : Limits}
    (valid : limits.validate profile = .ok ()) : 0 < limits.rounds := by
  simp only [validate, check_ok, last_check_ok] at valid
  obtain ⟨-, -, rounds, -⟩ := valid
  omega

structure Round where
  before : Workspace
  after : Workspace

namespace Round

def Edits (rule : Rule) (round : Round) : Prop :=
  rule.apply round.before = .ok () round.after ∧
    round.before.chain.edits < round.after.chain.edits

/-- What the next round finds. If the settings ask for it, a notice is left on this one, the
`n`-th. -/
def handOver (settings : FixingSettings) (rule : Rule) (n : Nat) (round : Round) : Workspace where
  chain := round.after.chain
  journal :=
    if settings.logRounds then
      round.after.journal.push (.info "Rule applied" [
        ("rule", rule.name),
        ("application", toString n),
        ("edits", toString (round.after.chain.edits - round.before.chain.edits))])
    else round.after.journal

/-- The rounds start from a workspace and follow one another; `n` rounds came before them. -/
def Successive (settings : FixingSettings) (rule : Rule) : Nat → Workspace → List Round → Prop
  | _, _, [] => True
  | n, w, round :: rest =>
    round.before = w ∧ Successive settings rule (n + 1) (round.handOver settings rule (n + 1)) rest

end Round

/-- Some round was made, no more than allowed, and only the last one made no edit. -/
structure RuleRun.Accounted (limits : Limits) (run : RuleRun) : Prop where
  applied : 1 ≤ run.rounds
  bounded : run.rounds ≤ limits.rounds
  idle_iff : run.edits = 0 ↔ run.rounds = 1

namespace Pass
variable {limits : Limits} {settings : FixingSettings} {rule : Rule} {rules : List Rule}
  {run run' : RuleRun} {runs : List RuleRun} {c d : Chain} {journal journal' : Array Notice}
  {fuel : Nat} {w : Workspace} {source : Text} {scan : Scan}

/-! ### Up to the chain of a source -/

theorem forM_note (notices : List Notice) (journal : Array Notice) :
    ∃ journal', notices.forM note journal = .ok () journal' := by
  induction notices generalizing journal with
  | nil => exact ⟨journal, rfl⟩
  | cons n notices ih => exact ih _

theorem lex_isOk : (∃ journal', lex limits source journal = .ok scan journal') ↔
    scan = Scan.ofSource limits source ∧ scan.failure = none := by
  obtain ⟨left, noted⟩ :=
    forM_note ((Scan.ofSource limits source).notices limits source) journal
  cases failure : (Scan.ofSource limits source).failure with
  | some e =>
    have failed : lex limits source journal = .error (.lexical e) left := by
      simp only [lex, bind, EStateM.bind, noted, failure]
      rfl
    constructor
    · rintro ⟨journal', done⟩
      rw [failed] at done
      cases done
    · rintro ⟨rfl, whole⟩
      rw [failure] at whole
      cases whole
  | none =>
    have done : lex limits source journal = .ok (Scan.ofSource limits source) left := by
      simp only [lex, bind, EStateM.bind, noted, failure]
      rfl
    constructor
    · rintro ⟨journal', same⟩
      rw [done] at same
      cases same
      exact ⟨rfl, failure⟩
    · rintro ⟨rfl, -⟩
      exact ⟨left, done⟩

theorem build_isOk : (∃ journal', build limits scan journal = .ok c journal') ↔
    Chain.ofLexemes limits.nodes scan.lexemes.toList = .ok c := by
  unfold build
  cases Chain.ofLexemes limits.nodes scan.lexemes.toList with
  | error e =>
    constructor
    · rintro ⟨journal', ⟨⟩⟩
    · rintro ⟨⟩
  | ok d =>
    constructor
    · rintro ⟨journal', ⟨⟩⟩
      rfl
    · rintro ⟨⟩
      exact ⟨_, rfl⟩

theorem ofSource?_of_build (lexed : lex limits source journal = .ok scan journal')
    {journal₁ journal₂ : Array Notice} (built : build limits scan journal₁ = .ok c journal₂) :
    Chain.ofSource? limits source = some c := by
  obtain ⟨rfl, whole⟩ := lex_isOk.mp ⟨journal', lexed⟩
  have made := build_isOk.mp ⟨journal₂, built⟩
  rw [Chain.ofSource?, Scan.result_ok.mpr ⟨whole, rfl⟩]
  exact toOption_some.mpr made

/-! ### One round -/

theorem applyRule_ok : applyRule rule c journal = .ok d journal' ↔
    rule.apply ⟨c, journal⟩ = .ok () ⟨d, journal'⟩ := by
  unfold applyRule
  cases made : rule.apply ⟨c, journal⟩ with
  | ok u w =>
    obtain ⟨e, left⟩ := w
    simp
  | error e w => simp

theorem settle_of_error {e : ChainError} (failed : rule.apply ⟨c, journal⟩ = .error e w) :
    settle limits settings rule (fuel + 1) run c journal = .error (.chain e) w.journal := by
  simp [settle, applyRule, bind, EStateM.bind, failed]

theorem settle_of_idle (limits : Limits) (settings : FixingSettings) (fuel : Nat) (run : RuleRun)
    (done : rule.apply ⟨c, journal⟩ = .ok () w) (idle : w.chain.edits ≤ c.edits) :
    ∃ journal', settle limits settings rule (fuel + 1) run c journal =
      .ok ({ run with rounds := run.rounds + 1 }, w.chain) journal' := by
  have none : w.chain.edits - c.edits = 0 := by omega
  simp [settle, applyRule, bind, EStateM.bind, done, none, note, pure, EStateM.pure]

theorem settle_of_edits (done : rule.apply ⟨c, journal⟩ = .ok () w) (more : c.edits < w.chain.edits) :
    settle limits settings rule (fuel + 1) run c journal =
      settle limits settings rule fuel
        { run with rounds := run.rounds + 1, edits := run.edits + (w.chain.edits - c.edits) } w.chain
        (Round.handOver settings rule (run.rounds + 1) ⟨⟨c, journal⟩, w⟩).journal := by
  have some : ¬ w.chain.edits - c.edits = 0 := by omega
  cases logged : settings.logRounds <;>
    simp [settle, applyRule, bind, EStateM.bind, done, some, note, Round.handOver, logged]

/-! ### A rule to its fixed point -/

/-- A rule is given up exactly when it edits in each of the rounds it may still have. -/
theorem settle_unsettled_iff : (∃ journal', settle limits settings rule fuel run c journal =
      .error (.unsettledRule rule.name limits.rounds) journal') ↔
    ∃ rounds : List Round, rounds.length = fuel ∧
      Round.Successive settings rule run.rounds ⟨c, journal⟩ rounds ∧
      ∀ round ∈ rounds, round.Edits rule := by
  induction fuel generalizing run c journal with
  | zero => exact ⟨fun _ => ⟨[], rfl, trivial, nofun⟩, fun _ => ⟨journal, rfl⟩⟩
  | succ fuel ih =>
    constructor
    · rintro ⟨journal', failed⟩
      cases made : rule.apply ⟨c, journal⟩ with
      | error e w =>
        rw [settle_of_error made] at failed
        cases failed
      | ok u w =>
        by_cases more : c.edits < w.chain.edits
        · rw [settle_of_edits made more] at failed
          obtain ⟨rounds, length, successive, all⟩ := ih.mp ⟨journal', failed⟩
          refine ⟨⟨⟨c, journal⟩, w⟩ :: rounds, congrArg (· + 1) length, ⟨rfl, successive⟩, ?_⟩
          exact List.forall_mem_cons.mpr ⟨⟨made, more⟩, all⟩
        · obtain ⟨journal₁, settled⟩ :=
            settle_of_idle limits settings fuel run made (Nat.le_of_not_gt more)
          rw [settled] at failed
          cases failed
    · rintro ⟨rounds, length, successive, all⟩
      cases rounds with
      | nil => cases length
      | cons round rounds =>
        obtain ⟨before, after⟩ := round
        obtain ⟨rfl, successive⟩ := successive
        obtain ⟨⟨done, more⟩, all⟩ := List.forall_mem_cons.mp all
        rw [settle_of_edits done more]
        exact ih.mpr ⟨rounds, Nat.succ.inj length, successive, all⟩

/-- A rule that works by commands never takes an edit back. -/
theorem edits_le_of_apply (byCommands : RuleM.ByCommands rule.apply) {w' : Workspace}
    (done : rule.apply w = .ok () w') :
    ∃ history, w'.chain = w.chain.afterAll history ∧ w.chain.edits ≤ w'.chain.edits := by
  obtain ⟨history, left⟩ := byCommands w
  have here : w'.chain = w.chain.afterAll history := by rwa [RuleM.outcome_of_ok done] at left
  exact ⟨history, here, here ▸ Chain.edits_le_afterAll⟩

/-- What a rule at its fixed point has counted since `run`, which came to the chain `c`. -/
theorem settle_counts (byCommands : RuleM.ByCommands rule.apply)
    (settled : settle limits settings rule fuel run c journal = .ok (run', d) journal') :
    run'.rule = run.rule ∧ run.rounds < run'.rounds ∧ run'.rounds ≤ run.rounds + fuel ∧
      run'.edits + c.edits = run.edits + d.edits ∧
      (run'.edits = run.edits ↔ run'.rounds = run.rounds + 1) ∧
      ∃ history, d = c.afterAll history := by
  induction fuel generalizing run c journal with
  | zero => cases settled
  | succ fuel ih =>
    cases made : rule.apply ⟨c, journal⟩ with
    | error e w =>
      rw [settle_of_error made] at settled
      cases settled
    | ok u w =>
      obtain ⟨history, here, least⟩ := edits_le_of_apply byCommands made
      by_cases more : c.edits < w.chain.edits
      · rw [settle_of_edits made more] at settled
        obtain ⟨name, rounds, bound, counted, -, later, there⟩ := ih settled
        dsimp only at name rounds bound counted
        have grown : w.chain.edits ≤ d.edits := there ▸ Chain.edits_le_afterAll
        refine ⟨name, by omega, by omega, by omega, by omega, history ++ later, ?_⟩
        rw [there, here, Chain.afterAll_append]
      · obtain ⟨journal₁, idle⟩ :=
          settle_of_idle limits settings fuel run made (Nat.le_of_not_gt more)
        rw [idle] at settled
        cases settled
        dsimp only at least
        exact ⟨rfl, Nat.lt_succ_self _, by dsimp only; omega, by dsimp only; omega, by simp,
          history, here⟩

/-! ### All rules -/

theorem runRules_cons_ok {done : List RuleRun × Chain} :
    runRules limits settings (rule :: rules) c journal = .ok done journal' ↔
    ∃ run e journal₁ runs d, settle limits settings rule limits.rounds { rule := rule.name } c journal =
        .ok (run, e) journal₁ ∧
      runRules limits settings rules e journal₁ = .ok (runs, d) journal' ∧ done = (run :: runs, d) := by
  simp only [runRules, state_bind_ok, state_pure_ok]
  constructor
  · rintro ⟨⟨run, e⟩, journal₁, first, ⟨runs, d⟩, journal₂, rest, same, rfl⟩
    exact ⟨run, e, journal₁, runs, d, first, rest, same.symm⟩
  · rintro ⟨run, e, journal₁, runs, d, first, rest, same⟩
    exact ⟨(run, e), journal₁, first, (runs, d), journal', rest, same.symm, rfl⟩

theorem runRules_counts (byCommands : ∀ rule ∈ rules, RuleM.ByCommands rule.apply)
    (done : runRules limits settings rules c journal = .ok (runs, d) journal') :
    runs.map (·.rule) = rules.map (·.name) ∧ (∀ run ∈ runs, run.Accounted limits) ∧
      runs.foldr (fun run n => run.edits + n) 0 + c.edits = d.edits ∧
      ∃ history, d = c.afterAll history := by
  induction rules generalizing c journal runs with
  | nil =>
    cases done
    exact ⟨rfl, nofun, Nat.zero_add _, [], rfl⟩
  | cons rule rules ih =>
    obtain ⟨run, e, journal₁, runs, d, first, rest, ⟨⟩⟩ := runRules_cons_ok.mp done
    obtain ⟨here, others⟩ := List.forall_mem_cons.mp byCommands
    obtain ⟨name, rounds, bound, counted, idle, history, left⟩ := settle_counts here first
    obtain ⟨names, accounted, total, later, right⟩ := ih others rest
    dsimp only at name rounds bound counted idle
    refine ⟨by simp [name, names], List.forall_mem_cons.mpr ⟨⟨by omega, by omega, by omega⟩, accounted⟩,
      ?_, history ++ later, by rw [right, left, Chain.afterAll_append]⟩
    simp only [List.foldr_cons]
    omega

/-! ### A whole pass -/

/-- The parts of a pass that ends well: the chain of the source, what the rules made of it, and the
check of their output. -/
theorem run_ok {settings : Settings} {label : String} {r : Outcome}
    (done : Pass.run limits settings rules label source journal = .ok r journal') :
    rules.length ≤ limits.rules ∧ ∃ start final journal₁ journal₂,
      Chain.ofSource? limits source = some start ∧
      runRules limits settings.fixing rules start journal₁ = .ok (r.runs, final) journal₂ ∧
      r.output = final.render ∧ r.changed = (r.output != source) ∧
      (r.changed = true → settings.fixing.recheck = true →
        ∃ journal₃, verify limits rules r.output journal₂ = .ok () journal₃) := by
  unfold Pass.run at done
  by_cases many : rules.length > limits.rules
  · simp only [if_pos many, bind, EStateM.bind] at done
    cases done
  rw [if_neg many] at done
  simp only [state_bind_ok] at done
  obtain ⟨_, _, -, scan, _, lexed, start, _, built, _, journal₁, -, ⟨runs, final⟩, journal₂, ran,
    ends⟩ := done
  refine ⟨Nat.le_of_not_gt many, start, final, journal₁, journal₂, ofSource?_of_build lexed built, ?_⟩
  split at ends
  · obtain ⟨⟨⟩, journal₃, verified, rfl, rfl⟩ := by
      simpa only [state_bind_ok, state_pure_ok] using ends
    exact ⟨ran, rfl, rfl, fun _ _ => ⟨_, verified⟩⟩
  · rename_i skipped
    obtain ⟨rfl, rfl⟩ := state_pure_ok.mp ends
    exact ⟨ran, rfl, rfl, fun changed recheck =>
      (skipped (Bool.and_eq_true_iff.mpr ⟨changed, recheck⟩)).elim⟩

end Pass

theorem Log.Session.fix_ok {s : Log.Session} {duration label : String} {settings : Settings}
    {rules : List Rule} {source : Text} {r : Outcome} :
    (s.fix duration settings rules label source).1 = .ok r ↔
      ∃ journal, Pass.run s.limits settings rules label source #[] = .ok r journal := by
  have result : (s.fix duration settings rules label source).1 =
      (Pass.perform s.limits settings rules label source).1 := rfl
  rw [result, Pass.perform]
  cases Pass.run s.limits settings rules label source #[] <;> simp

/-- What a pass with rules that work by commands reports. The reports are those of its rules, in
order; their edits are all that the final chain has counted; and without edits the text is that of
the source. A rule is given up exactly when it edits in every round it may have, and no rule brings
the count of edits down. -/
theorem edit_accounting {profile : String} {s : Log.Session}
    (valid : s.limits.validate profile = .ok ()) {rules : List Rule}
    (byCommands : ∀ rule ∈ rules, RuleM.ByCommands rule.apply) (settings : Settings) :
    (∀ duration label source r, (s.fix duration settings rules label source).1 = .ok r →
      ∃ start final journal journal', Chain.ofSource? s.limits source = some start ∧
        Pass.runRules s.limits settings.fixing rules start journal = .ok (r.runs, final) journal' ∧
        r.output = final.render ∧ r.edits = final.edits ∧
        r.runs.map (·.rule) = rules.map (·.name) ∧
        (∀ run ∈ r.runs, 1 ≤ run.rounds ∧ run.rounds ≤ s.limits.rounds ∧
          (run.edits = 0 ↔ run.rounds = 1)) ∧
        (r.edits = 0 → r.output = source ∧ r.changed = false)) ∧
    (∀ rule ∈ rules, ∀ c journal,
      (∃ journal', Pass.settle s.limits settings.fixing rule s.limits.rounds { rule := rule.name } c
        journal = .error (.unsettledRule rule.name s.limits.rounds) journal') ↔
      ∃ rounds : List Round, rounds.length = s.limits.rounds ∧
        Round.Successive settings.fixing rule 0 ⟨c, journal⟩ rounds ∧
        ∀ round ∈ rounds, round.Edits rule) ∧
    ∀ rule ∈ rules, ∀ w w', rule.apply w = .ok () w' → w.chain.edits ≤ w'.chain.edits := by
  refine ⟨?_, fun _ _ _ _ => Pass.settle_unsettled_iff, ?_⟩
  · intro duration label source r fixed
    obtain ⟨journal, done⟩ := Log.Session.fix_ok.mp fixed
    obtain ⟨-, start, final, journal₁, journal₂, read, ran, output, changed, -⟩ := Pass.run_ok done
    obtain ⟨names, accounted, total, history, rfl⟩ := Pass.runRules_counts byCommands ran
    obtain ⟨lexemes, last, -, -, -, threaded⟩ := Chain.exists_threaded valid read
    have edits : r.edits = (start.afterAll history).edits := by
      rw [← total, threaded.edits]
      rfl
    refine ⟨start, _, journal₁, journal₂, read, ran, output, edits, names,
      fun run member => ⟨(accounted run member).applied, (accounted run member).bounded,
        (accounted run member).idle_iff⟩, fun idle => ?_⟩
    have same : r.output = source := by
      rw [output, (threaded.wellFormed.render_afterAll (by omega)).2, Chain.render_of_source valid read]
    exact ⟨same, by simp [changed, same]⟩
  · intro rule member w w' done
    obtain ⟨history, -, least⟩ := Pass.edits_le_of_apply (byCommands rule member) done
    exact least

/-- The shipped rule needs two rounds for a class with a constructor. -/
theorem edit_accounting_of_constructor :
    ∃ s : Log.Session, s.limits.validate "development" = .ok () ∧
      (∀ rule ∈ Rule.shipped, RuleM.ByCommands rule.apply) ∧
      ∃ (r : Outcome) (final : Chain), (s.fix "0" ({} : Environment).settings Rule.shipped
          Pass.anonymous "<?php class A{$x=1;function __construct(){}}".toList).1 = .ok r ∧
        r.edits = 11 ∧ r.edits = final.edits ∧ r.output = final.render ∧
        ∀ run ∈ r.runs, run.rounds = 2 ∧ (run.edits = 0 ↔ run.rounds = 1) := by
  let s : Log.Session :=
    { limits := .development, settings := ({} : Environment).logging
      service := .ofSettings ({} : Environment).logging }
  have valid : s.limits.validate "development" = .ok () := by decide
  have works : ∀ rule ∈ Rule.shipped, RuleM.ByCommands rule.apply := by
    simpa [Rule.shipped] using ConstructorDefaults.works_apply.byCommands
  have checked : ((s.fix "0" ({} : Environment).settings Rule.shipped Pass.anonymous
      "<?php class A{$x=1;function __construct(){}}".toList).1.toOption.any fun r =>
        decide (r.edits = 11 ∧ ∀ run ∈ r.runs, run.rounds = 2)) = true := by
    decide +kernel
  obtain ⟨r, made, facts⟩ := (Option.any_eq_true ..).mp checked
  obtain ⟨edits, rounds⟩ := of_decide_eq_true facts
  have fixed := toOption_some.mp made
  obtain ⟨start, final, -, -, -, -, output, counted, -, accounted, -⟩ :=
    (edit_accounting valid works _).1 _ _ _ r fixed
  exact ⟨s, valid, works, r, final, fixed, edits, counted, output,
    fun run member => ⟨rounds run member, (accounted run member).2.2⟩⟩

end Restyle

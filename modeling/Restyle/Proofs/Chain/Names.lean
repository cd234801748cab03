import Restyle.Proofs.Chain.Lifecycle
import Restyle.Proofs.Lexer.Lossless

/-!
# Names of nodes

A node is named by its place, and a name has only 32 bits. The limits of a build keep every table
small enough for that: what can be lexed fits into a table (`limits_fit_together`), and whatever is
created later gets the name of its own place (`firsts_append_issued`).
-/

namespace Restyle

namespace Chain
variable {c : Chain} {command : Command} {history : List Command}

def issued : Chain → List Command → List NodeId
  | _, [] => []
  | c, command :: rest =>
    (match command.run c with
      | .ok (some id) _ => [id]
      | _ => []) ++ (c.after command).issued rest

/-! ### One command -/

/-- What a command does to the table: it adds a place and returns its name, or it does neither. -/
inductive Allots (c : Chain) (command : Command) : Prop
  | place (returns : c.issued [command] = [.ofIndex c.size]) (room : c.size < c.capacity)
    (size : (c.after command).size = c.size + 1)
  | nothing (returns : c.issued [command] = []) (size : (c.after command).size = c.size)

@[simp] theorem capacity_withHead {h : Option NodeId} : (c.withHead h).capacity = c.capacity := rfl

@[simp] theorem capacity_orphanStray : c.orphanStray.capacity = c.capacity := rfl

@[simp] theorem capacity_linkTo {a : NodeId} {q : Option NodeId} : (c.linkTo a q).capacity = c.capacity := by
  cases q <;> simp [linkTo]

/-- An edit moves nodes about in the table that there is. -/
theorem allots_commit {α : Type} (check : Chain → Except ChainError α) {change : α → Chain → Chain}
    (run : command.run = do commit check change; return none)
    (sizes : ∀ x, (change x c).size = c.size) (capacities : ∀ x, (change x c).capacity = c.capacity) :
    c.Allots command ∧ (c.after command).capacity = c.capacity := by
  have silent : c.issued [command] = [] := by
    simp only [issued, run, bind, EStateM.bind, pure, EStateM.pure]
    cases commit check change c <;> rfl
  rcases after_of_run command run with done | ⟨e, failed⟩
  · obtain ⟨x, -, after⟩ := commit_ok.mp done
    rw [after]
    exact ⟨.nothing silent (by rw [after]; exact sizes x), capacities x⟩
  · rw [commit_error failed]
    exact ⟨.nothing silent (by rw [commit_error failed]), rfl⟩

theorem allots_removeSpan (first last : NodeId)
    (run : command.run = do removeSpan first last; return none) :
    c.Allots command ∧ (c.after command).capacity = c.capacity := by
  refine allots_commit _ run (fun x => ?_) fun x => ?_
  · refine size_orphanAll.trans ?_
    cases c.next? last <;> simp
  · refine capacity_orphanAll.trans ?_
    cases c.next? last <;> simp

theorem allots_after (c : Chain) (command : Command) :
    c.Allots command ∧ (c.after command).capacity = c.capacity := by
  cases command with
  | create token =>
    by_cases room : c.size < c.capacity
    · have created : create token c = .ok (.ofIndex c.size) (c.push token) :=
        create_ok.mpr ⟨room, rfl, rfl⟩
      have run : (Command.create token).run c = .ok (some (.ofIndex c.size)) (c.push token) := by
        simp [Command.run, bind, EStateM.bind, pure, EStateM.pure, created]
      rw [after_of_ok run]
      exact ⟨.place (by simp [issued, run]) room (by rw [after_of_ok run, size_push]), capacity_push⟩
    · have run : (Command.create token).run c = .error (.chainLimit (c.size + 1) c.capacity) c := by
        simp [Command.run, bind, EStateM.bind, create, room]
      rw [after_of_error run]
      exact ⟨.nothing (by simp [issued, run]) (by rw [after_of_error run]), rfl⟩
  | join a b =>
    refine allots_commit (checkJoin a b) rfl (fun _ => ?_) fun _ => ?_
    · show ((c.link a b).withHead (some a)).orphanStray.size = c.size
      simp
    · show ((c.link a b).withHead (some a)).orphanStray.capacity = c.capacity
      simp
  | replace id fresh => exact allots_commit _ rfl (by simp) (by simp)
  | insertBefore id fresh => exact allots_commit _ rfl (by simp) (by simp)
  | insertAfter id fresh =>
    refine allots_commit (checkAfter id fresh) rfl (fun _ => ?_) fun _ => ?_
    · show (((c.link id fresh).linkTo fresh (c.next? id)).withHead _).size = c.size
      simp
    · exact capacity_linkTo.trans capacity_link
  | remove id => exact allots_removeSpan id id rfl
  | removeSpan first last => exact allots_removeSpan first last rfl

/-! ### A history -/

theorem issued_cons : c.issued (command :: history) =
    c.issued [command] ++ (c.after command).issued history := by
  simp [issued]

/-- The names of all places are given out one after another, and there are no more of them than the
table may hold. -/
theorem firsts_append_issued (history : List Command) (fits : c.size ≤ c.capacity) :
    NodeId.firsts c.size ++ c.issued history = NodeId.firsts (c.afterAll history).size ∧
      (c.afterAll history).size ≤ c.capacity := by
  induction history generalizing c with
  | nil => exact ⟨List.append_nil _, fits⟩
  | cons command rest ih =>
    obtain ⟨allots, capacity⟩ := allots_after c command
    show _ = NodeId.firsts ((c.after command).afterAll rest).size ∧
      ((c.after command).afterAll rest).size ≤ _
    rw [issued_cons, ← List.append_assoc]
    cases allots with
    | place returns room size =>
      rw [returns, ← NodeId.firsts_succ, ← size, ← capacity]
      exact ih (by omega)
    | nothing returns size =>
      rw [returns, List.append_nil, ← size, ← capacity]
      exact ih (by omega)

end Chain

/-- Under the limits of a build, a source that can be lexed has a chain. Whatever commands are carried
out on it then, the table never outgrows the limit, the name of each place leads back to that place,
and so all names that were given out are different. -/
theorem limits_fit_together {profile : String} {limits : Limits}
    (valid : limits.validate profile = .ok ()) {source : Text} {lexemes : List Lexeme}
    (lexed : (Scan.ofSource limits source).result = .ok lexemes) :
    ∃ c, Chain.ofLexemes limits.nodes lexemes = .ok c ∧ ∀ history : List Command,
      (c.afterAll history).size ≤ limits.nodes ∧
      (∀ i < (c.afterAll history).size, (NodeId.ofIndex i).index = i) ∧
      (c.order ++ c.issued history).map NodeId.index = List.range (c.afterAll history).size ∧
      (c.order ++ c.issued history).Nodup := by
  obtain ⟨narrow, tokens⟩ := Limits.nodes_lt_of_validate valid
  obtain ⟨-, -, bound⟩ := Scan.ofSource_pieces lexed
  obtain ⟨c, last, built, threaded⟩ :=
    Chain.ofLexemes_spec (Nat.le_of_lt narrow) (Nat.le_trans bound tokens)
  have size : c.size = lexemes.length := by rw [threaded.size, List.length_map]
  have order : c.order = NodeId.firsts c.size := by rw [threaded.order, threaded.size]
  have fits : c.size ≤ c.capacity := by
    rw [size, threaded.capacity]
    omega
  refine ⟨c, built, fun history => ?_⟩
  obtain ⟨names, room⟩ := Chain.firsts_append_issued history fits
  rw [threaded.capacity] at room
  have indices : (c.order ++ c.issued history).map NodeId.index =
      List.range (c.afterAll history).size := by
    rw [order, names, NodeId.map_index_firsts (by omega)]
  refine ⟨room, fun i inside => NodeId.index_ofIndex (by omega), indices, ?_⟩
  exact List.Nodup.of_map NodeId.index (indices ▸ List.nodup_range)

/-- Limits that the source uses up: nothing can be created any more. -/
theorem limits_fit_together_full :
    { Limits.development with nodes := 3, tokens := 3 }.validate "development" = .ok () ∧
    ∃ lexemes c, (Scan.ofSource { Limits.development with nodes := 3, tokens := 3 }
        "<?php a".toList).result = .ok lexemes ∧
      Chain.ofLexemes 3 lexemes = .ok c ∧
      (c.afterAll [.create (.classify .identifier ['b'])]).size ≤ 3 ∧
      (c.order ++ c.issued [.create (.classify .identifier ['b'])]).Nodup := by
  have valid : { Limits.development with nodes := 3, tokens := 3 }.validate "development" = .ok () := by
    decide
  have lexed := Scan.result_ok.mpr ⟨show (Scan.ofSource
    { Limits.development with nodes := 3, tokens := 3 } "<?php a".toList).failure = none by decide, rfl⟩
  obtain ⟨c, built, names⟩ := limits_fit_together valid lexed
  obtain ⟨room, -, -, different⟩ := names [.create (.classify .identifier ['b'])]
  exact ⟨valid, _, c, lexed, built, room, different⟩

end Restyle

import Restyle.Proofs.Rule.Run

/-!
# How the parts of the rule fail

Looking things up fails only where a neighbor is missing, and putting tokens in only where the chain
is full. Everything else that an edit checks holds by the time it is made.
-/

namespace Restyle

def ChainError.IsMissing (e : ChainError) : Prop := ∃ node side, e = .noNeighbor node side

def ChainError.IsLimit (e : ChainError) : Prop := ∃ count max, e = .chainLimit count max

namespace RuleM
variable {α β : Type} {P : ChainError → Workspace → Prop} {w w' : Workspace} {a : α}

/-- All errors of a computation are of one kind, with the workspace that they leave behind. -/
def FailsIn (P : ChainError → Workspace → Prop) (x : RuleM α) (w : Workspace) : Prop :=
  ∀ e w', x w = .error e w' → P e w'

abbrev FailsWith (P : ChainError → Prop) (x : RuleM α) (w : Workspace) : Prop :=
  FailsIn (fun e _ => P e) x w

def Full (e : ChainError) (w : Workspace) : Prop := e.IsLimit ∧ w.chain.capacity ≤ w.chain.size

theorem failsIn_of_ok {x : RuleM α} (ok : x w = .ok a w') : FailsIn P x w := by
  intro e w'' failed
  rw [ok] at failed
  cases failed

theorem FailsIn.mono {Q : ChainError → Workspace → Prop} {x : RuleM α} (fails : FailsIn P x w)
    (imp : ∀ e w, P e w → Q e w) : FailsIn Q x w :=
  fun e w' failed => imp e w' (fails e w' failed)

theorem FailsIn.ok_or_error {x : RuleM α} (fails : FailsIn P x w) :
    (∃ a w', x w = .ok a w') ∨ ∃ e w', x w = .error e w' ∧ P e w' := by
  cases result : x w with
  | ok a w' => exact .inl ⟨a, w', rfl⟩
  | error e w' => exact .inr ⟨e, w', rfl, fails e w' result⟩

theorem FailsIn.bind {x : RuleM α} {f : α → RuleM β} (first : FailsIn P x w)
    (rest : ∀ a w₁, x w = .ok a w₁ → FailsIn P (f a) w₁) : FailsIn P (x >>= f) w := by
  intro e w' failed
  simp only [Bind.bind, EStateM.bind] at failed
  cases made : x w with
  | ok a w₁ =>
    rw [made] at failed
    exact rest a w₁ made e w' failed
  | error e₁ w₁ =>
    rw [made] at failed
    obtain ⟨rfl, rfl⟩ := EStateM.Result.error.inj failed
    exact first e₁ w₁ made

theorem failsIn_look {query : Chain → Except ChainError α}
    (fails : ∀ e, query w.chain = .error e → P e w) : FailsIn P (look query) w := by
  intro e w' failed
  unfold look at failed
  cases found : query w.chain with
  | ok a =>
    rw [found] at failed
    cases failed
  | error e₁ =>
    rw [found] at failed
    obtain ⟨rfl, rfl⟩ := EStateM.Result.error.inj failed
    exact fails e₁ found

theorem failsIn_edit {x : Edit α} (fails : ∀ e c, x w.chain = .error e c → P e ⟨c, w.journal⟩) :
    FailsIn P (edit x) w := by
  intro e w' failed
  obtain ⟨chain, journal⟩ := w
  unfold edit at failed
  cases made : x chain with
  | ok a c =>
    simp only [made] at failed
    cases failed
  | error e₁ c =>
    simp only [made] at failed
    obtain ⟨rfl, rfl⟩ := EStateM.Result.error.inj failed
    exact fails e₁ c made

theorem failsIn_of_edit {x : Edit α} (ok : ∃ c, x w.chain = .ok a c) : FailsIn P (edit x) w := by
  obtain ⟨c, ok⟩ := ok
  refine failsIn_edit fun e d failed => ?_
  rw [ok] at failed
  cases failed

theorem failsIn_note (n : Log.Notice) : FailsIn P (note n) w :=
  failsIn_of_ok (a := ()) (note_ok.mpr rfl)

theorem failsIn_forM {f : α → RuleM Unit} {l : List α} (I : Workspace → Prop) (start : I w)
    (fails : ∀ a ∈ l, ∀ w, I w → FailsIn P (f a) w)
    (step : ∀ a ∈ l, ∀ w w', I w → f a w = .ok () w' → I w') : FailsIn P (l.forM f) w := by
  induction l generalizing w with
  | nil => exact failsIn_of_ok (a := ()) (forM_nil_ok.mpr rfl)
  | cons a l ih =>
    refine FailsIn.bind (fails a List.mem_cons_self w start) fun _ w₁ ok => ?_
    exact ih (step a List.mem_cons_self w w₁ start ok)
      (fun b member => fails b (List.mem_cons_of_mem _ member))
      fun b member => step b (List.mem_cons_of_mem _ member)

end RuleM

namespace Chain
variable {c : Chain} {id first last : NodeId}

/-! ### Lookups -/

theorem next_isMissing (known : c.Known id) {e : ChainError} (failed : c.next id = .error e) :
    e.IsMissing := by
  cases next : c.next? id with
  | none =>
    rw [next_error known next] at failed
    exact ⟨id, .next, (Except.error.inj failed).symm⟩
  | some b =>
    rw [next_ok.mpr next] at failed
    cases failed

theorem previous_isMissing (known : c.Known id) {e : ChainError} (failed : c.previous id = .error e) :
    e.IsMissing := by
  cases previous : c.previous? id with
  | none =>
    rw [previous_error known previous] at failed
    exact ⟨id, .previous, (Except.error.inj failed).symm⟩
  | some b =>
    rw [previous_ok.mpr previous] at failed
    cases failed

theorem span_isMissing (knownFirst : c.Known first) (knownLast : c.Known last) {e : ChainError}
    (failed : c.span first last = .error e) : e.IsMissing := by
  obtain ⟨f, foundFirst⟩ := knownFirst
  obtain ⟨l, foundLast⟩ := knownLast
  simp only [span, node_ok.mpr foundFirst, node_ok.mpr foundLast, bind, Except.bind] at failed
  split at failed
  · cases failed
  · exact ⟨_, _, (Except.error.inj failed).symm⟩

theorem WellFormed.span_known (wf : c.WellFormed) {ids : List NodeId}
    (span : c.span first last = .ok ids) : ∀ x ∈ ids, c.Known x := by
  obtain ⟨known, -, path, head, -⟩ := wf.span_ok.mp span
  exact wf.path_known_of_mem path (List.mem_of_mem_head? head) known

theorem token_isOk (known : c.Known id) : ∃ t, c.token id = .ok t := by
  obtain ⟨t, token⟩ := known_iff_token?.mp known
  exact ⟨t, token_ok.mpr token⟩

end Chain

namespace ConstructorDefaults
open RuleM
open Chain (Inserted)
variable {c : Chain} {w w' : Workspace} {P : ChainError → Workspace → Prop} {left mid right : List NodeId}
  {anchor start : NodeId} {body : Group} {unit indent : Text} {p : Property} {value : Initializer}

/-- Statements have an indent if anything is seen after the opening brace. -/
theorem statementIndent_isOk (wf : c.WellFormed) (known : c.Known start) {r : NodeId}
    {before spaces after : List NodeId}
    (run : c.IsRun (before ++ body.opener :: (spaces ++ r :: after)))
    (space : ∀ x ∈ spaces, c.isWhitespace x = true) (seen : c.isWhitespace r = false)
    (knownOpener : c.Known body.opener) : ∃ text, statementIndent c start body unit = .ok text := by
  have visible := wf.nextVisible_ok run space seen
  have path : Trail.IsPath c.next? (body.opener :: (spaces ++ [r])) := by
    have whole : c.IsRun (before ++ (body.opener :: (spaces ++ [r]) ++ after)) := by simpa using run
    exact whole.path.right.left
  have knownAll := wf.path_known_of_mem path List.mem_cons_self knownOpener
  have span : c.span body.opener r = .ok (body.opener :: (spaces ++ [r])) :=
    wf.span_ok.mpr ⟨knownOpener, knownAll r (by simp), path, rfl, by
      rw [← List.cons_append, List.getLast?_concat]⟩
  obtain ⟨here, found⟩ := wf.indentAt_isOk (knownAll r (by simp))
  obtain ⟨outer, found'⟩ := wf.indentAt_isOk known
  simp only [statementIndent, visible, bind, Except.bind, Chain.spanBreaksLine, span, Except.map,
    found, found', pure, Except.pure]
  split
  · split
    · exact ⟨_, rfl⟩
    · exact ⟨_, rfl⟩
  · exact ⟨_, rfl⟩

theorem statementIndent_isMissing (wf : c.WellFormed) (known : c.Known start)
    (knownOpener : c.Known body.opener) {e : ChainError}
    (failed : statementIndent c start body unit = .error e) : e.IsMissing := by
  obtain ⟨before, after, run⟩ := wf.exists_run knownOpener
  rcases Chain.all_spaces_or_split c after with space | ⟨spaces, r, rest, rfl, space, seen⟩
  · obtain ⟨x, side, missing⟩ := wf.nextVisible_error knownOpener run space
    simp only [statementIndent, missing, bind, Except.bind] at failed
    exact ⟨x, side, (Except.error.inj failed).symm⟩
  · obtain ⟨text, ok⟩ := statementIndent_isOk wf known run space seen knownOpener
    rw [ok] at failed
    cases failed

theorem assignment_isOk (wf : c.WellFormed) (known : c.Known p.start) {ids : List NodeId}
    (span : c.span value.first value.last = .ok ids) : ∃ s, assignment c indent p value = .ok s := by
  obtain ⟨declared, found⟩ := wf.indentAt_isOk known
  obtain ⟨ts, tokens⟩ : ∃ ts, ids.mapM c.token = .ok ts := by
    simp only [Outcome.mapM_ok]
    have each : ∀ x ∈ ids, ∃ t, c.token x = .ok t := fun x member =>
      Chain.token_isOk (wf.span_known span x member)
    clear span
    induction ids with
    | nil => exact ⟨[], rfl⟩
    | cons x ids ih =>
      obtain ⟨t, token⟩ := each x List.mem_cons_self
      obtain ⟨ts, rest⟩ := ih fun y member => each y (List.mem_cons_of_mem _ member)
      exact ⟨t :: ts, by simp [token, rest]⟩
  simp only [assignment, found, span, tokens, bind, Except.bind, pure, Except.pure]
  exact ⟨_, rfl⟩

theorem assignment_isMissing (wf : c.WellFormed) (known : c.Known p.start)
    (knownFirst : c.Known value.first) (knownLast : c.Known value.last) {e : ChainError}
    (failed : assignment c indent p value = .error e) : e.IsMissing := by
  cases span : c.span value.first value.last with
  | ok ids =>
    obtain ⟨s, ok⟩ : ∃ s, assignment c indent p value = .ok s := assignment_isOk wf known span
    rw [ok] at failed
    cases failed
  | error e₁ =>
    obtain ⟨declared, found⟩ := wf.indentAt_isOk known
    simp only [assignment, found, span, bind, Except.bind] at failed
    rw [← Except.error.inj failed]
    exact Chain.span_isMissing knownFirst knownLast span

/-! ### Edits -/

theorem dropDefault_isMissing {d : ClassDecl} (sound : w.chain.Sound)
    (knownFirst : w.chain.Known p.variableId) (knownLast : w.chain.Known p.terminator) :
    FailsWith ChainError.IsMissing (dropDefault d p) w := by
  have wf := sound.wellFormed
  refine .bind (failsIn_look fun e => Chain.next_isMissing knownFirst) fun first w₁ found => ?_
  obtain ⟨next, rfl⟩ := look_ok.mp found
  refine .bind (failsIn_look fun e => Chain.previous_isMissing knownLast) fun last w₂ found => ?_
  obtain ⟨previous, rfl⟩ := look_ok.mp found
  refine .bind (failsIn_edit fun e c failed => ?_) fun _ w₃ _ => failsIn_note _
  have next := Chain.next_ok.mp next
  have back := (wf.symmetric _ _).mpr (Chain.previous_ok.mp previous)
  have before := (wf.symmetric _ _).mp next
  have usable : w.chain.Usable first := ⟨_, (wf.linked_of_next? next).2, by simp⟩
  have usable' : w.chain.Usable last := ⟨_, (wf.linked_of_next? back).1, by simp⟩
  cases span : w.chain.span first last with
  | ok ids =>
    obtain ⟨d, ok⟩ := Chain.removeSpan_isOk.mpr ⟨usable, usable', ⟨_, before⟩, ids, span⟩
    rw [ok] at failed
    cases failed
  | error e₁ =>
    have missing : e₁.IsMissing :=
      Chain.span_isMissing usable.known usable'.known span
    have checked : Chain.checkRemove first last w.chain = .error e₁ := by
      simp [Chain.checkRemove, Chain.checkUsable_ok.mpr usable, Chain.checkUsable_ok.mpr usable',
        (Chain.neighborBefore_ok "remove").mpr before, span, bind, Except.bind]
    simp only [Chain.removeSpan, Chain.commit, checked] at failed
    rw [← (EStateM.Result.error.inj failed).1]
    exact missing

theorem dropDefault_isOk {d : ClassDecl} (sound : w.chain.Sound)
    (order : w.chain.order = left ++ p.variableId :: (mid ++ p.terminator :: right))
    (some : mid ≠ []) : ∃ w', dropDefault d p w = .ok () w' := by
  have wf := sound.wellFormed
  have run := wf.order_isRun_of_mem (show p.variableId ∈ w.chain.order by simp [order])
  obtain ⟨first, rest, rfl⟩ := List.exists_cons_of_ne_nil some
  obtain ⟨init, last, same⟩ := (List.eq_nil_or_concat (first :: rest)).resolve_left some
  rw [List.concat_eq_append] at same
  have next : w.chain.next? p.variableId = Option.some first := by
    rw [order] at run
    exact run.next?_of_append
  have previous : w.chain.previous? p.terminator = Option.some last := by
    have split : w.chain.order = (left ++ p.variableId :: (init ++ [last])) ++ p.terminator :: right := by
      simp [order, ← same]
    rw [split] at run
    rw [run.previous?_of_append wf, ← List.cons_append, ← List.append_assoc, List.getLast?_concat]
  have span : w.chain.span first last = .ok (first :: rest) := by
    have split : w.chain.order = (left ++ [p.variableId]) ++ (first :: rest) ++ p.terminator :: right := by
      simp [order]
    exact wf.span_of_order split rfl (by simp [same])
  have back := (wf.symmetric _ _).mpr previous
  obtain ⟨d', removed⟩ := Chain.removeSpan_isOk.mpr
    ⟨⟨_, (wf.linked_of_next? next).2, by simp⟩, ⟨_, (wf.linked_of_next? back).1, by simp⟩,
      ⟨_, (wf.symmetric _ _).mp next⟩, _, span⟩
  refine ⟨_, bind_ok.mpr ⟨first, w, look_ok.mpr ⟨Chain.next_ok.mpr next, rfl⟩, bind_ok.mpr
    ⟨last, w, look_ok.mpr ⟨Chain.previous_ok.mpr previous, rfl⟩, bind_ok.mpr
      ⟨(), ⟨d', w.journal⟩, edit_ok.mpr ⟨removed, rfl⟩, note_ok.mpr rfl⟩⟩⟩⟩

theorem create_full {t : Token} : FailsIn Full (edit (Chain.create t)) w := by
  refine failsIn_edit fun e c failed => ?_
  unfold Chain.create at failed
  split at failed
  · cases failed
  · rename_i full
    obtain ⟨rfl, rfl⟩ := EStateM.Result.error.inj failed
    exact ⟨⟨_, _, rfl⟩, Nat.le_of_not_lt full⟩

theorem insertBefore_isOk_of_create {t : Token} {id : NodeId} {w₁ : Workspace} (sound : w.chain.Sound)
    (order : w.chain.order = left ++ anchor :: right) (some : left ≠ [])
    (created : edit (Chain.create t) w = .ok id w₁) :
    ∃ c, Chain.insertBefore anchor id w₁.chain = .ok () c := by
  obtain ⟨room, rfl, pushed⟩ := Chain.create_ok.mp (edit_ok.mp created).1
  have sound' := sound.push t
  rw [pushed, Chain.insertBefore_isOk,
    sound'.wellFormed.usable_and_previous_iff sound'.connected, sound.wellFormed.order_push, order]
  refine ⟨by simp, ?_, Chain.state?_push_new sound.toRoomy room t⟩
  obtain ⟨first, rest, rfl⟩ := List.exists_cons_of_ne_nil some
  have nodup := sound.wellFormed.order_nodup
  rw [order, List.cons_append, List.nodup_cons] at nodup
  intro same
  obtain rfl : first = anchor := by simpa using same
  exact nodup.1 (by simp)

theorem putBefore_full {t : Token} (sound : w.chain.Sound)
    (order : w.chain.order = left ++ anchor :: right) (some : left ≠ []) :
    FailsIn Full (putBefore anchor t) w :=
  .bind create_full fun _ _ created =>
    failsIn_of_edit (a := ()) (insertBefore_isOk_of_create sound order some created)

theorem putAllBefore_full {tokens : List Token} (sound : w.chain.Sound)
    (order : w.chain.order = left ++ anchor :: right) (some : left ≠ []) :
    FailsIn Full (putAllBefore anchor tokens) w := by
  refine failsIn_forM (fun w => w.chain.Sound ∧ ∃ left right, left ≠ [] ∧
    w.chain.order = left ++ anchor :: right) ⟨sound, left, right, some, order⟩ ?_ ?_
  · rintro t - w ⟨sound, left, right, some, order⟩
    exact putBefore_full sound order some
  · rintro t - w w' ⟨sound, left, right, some, order⟩ ok
    obtain ⟨id, w₁, created, links⟩ := bind_ok.mp ok
    have inserted := insertBefore_ok sound.toRoomy order created links
    exact ⟨inserted.sound sound, left ++ [id], right, by simp, by simpa using inserted.order⟩

theorem putAllAfter_full {tokens : List Token} (sound : w.chain.Sound)
    (member : anchor ∈ w.chain.order) :
    FailsIn Full (putAllAfter anchor tokens) w := by
  induction tokens generalizing w anchor with
  | nil => exact failsIn_of_ok (a := ()) (pure_ok.mpr ⟨rfl, rfl⟩)
  | cons t tokens ih =>
    refine .bind create_full fun id w₁ created => ?_
    obtain ⟨room, rfl, pushed⟩ := Chain.create_ok.mp (edit_ok.mp created).1
    obtain ⟨left, right, order⟩ := List.append_of_mem member
    have sound' := sound.push t
    have order' := (sound.wellFormed.order_push t).trans order
    obtain ⟨d, done, becomes⟩ := sound'.wellFormed.insertAfter_becomes sound'.connected order'
      (Chain.state?_push_new sound.toRoomy room t)
    refine .bind (failsIn_of_edit (a := ()) ⟨d, by rw [pushed]; exact done⟩) fun _ w₂ placed => ?_
    have same : w₂.chain = d := by
      have placed := (edit_ok.mp placed).1
      rw [pushed, done] at placed
      exact (EStateM.Result.ok.inj placed).2.symm
    refine ih ?_ ?_
    · rw [same]
      exact ⟨⟨becomes.wellFormed, (Chain.capacity_insertAfter done).1 ▸ sound.capacity⟩,
        becomes.connected⟩
    · rw [same, becomes.order]
      simp

theorem closingLine_full (sound : w.chain.Sound)
    (order : w.chain.order = left ++ body.closer :: right) (some : left ≠ []) :
    FailsIn Full (closingLine body indent) w := by
  have wf := sound.wellFormed
  obtain ⟨init, before, rfl⟩ := (List.eq_nil_or_concat left).resolve_left some
  rw [List.concat_eq_append] at order some
  obtain ⟨-, run⟩ := wf.run_of_order order
  have previous : w.chain.previous? body.closer = Option.some before := by
    rw [run.previous?_of_append wf, List.getLast?_concat]
  have known : w.chain.Known before := wf.inRange _ _ (.inr previous)
  obtain ⟨t, token⟩ := Chain.token_isOk known
  have looks : look (·.previous body.closer) w = .ok before w :=
    look_ok.mpr ⟨Chain.previous_ok.mpr previous, rfl⟩
  refine .bind (failsIn_of_ok looks) fun _ w₁ found => ?_
  obtain ⟨same, rfl⟩ := look_ok.mp found
  obtain rfl := Except.ok.inj (same.symm.trans (Chain.previous_ok.mpr previous))
  have reads : look (·.token _) w = .ok t w := look_ok.mpr ⟨token, rfl⟩
  refine .bind (failsIn_of_ok reads) fun t w₁ found => ?_
  obtain ⟨-, rfl⟩ := look_ok.mp found
  split
  · exact failsIn_of_ok (pure_ok.mpr ⟨rfl, rfl⟩)
  · refine .bind create_full fun id w₁ created => ?_
    refine .bind (failsIn_of_edit (a := ()) (insertBefore_isOk_of_create sound order some created))
      fun _ w₂ _ => failsIn_of_ok (pure_ok.mpr ⟨rfl, rfl⟩)

theorem addStatements_full {statements : List (List Token)} (sound : w.chain.Sound)
    (known : w.chain.Known start) (order : w.chain.order = left ++ body.closer :: right)
    (opener : body.opener ∈ left) (seen : w.chain.isWhitespace body.opener = false) :
    FailsIn Full (addStatements start body indent statements) w := by
  have some : left ≠ [] := List.ne_nil_of_mem opener
  obtain ⟨text, found⟩ := sound.wellFormed.indentAt_isOk known
  refine .bind (failsIn_of_ok (look_ok.mpr ⟨found, rfl⟩)) fun headIndent w₁ found => ?_
  obtain ⟨-, rfl⟩ := look_ok.mp found
  refine .bind (closingLine_full sound order some) fun anchor w₁ line => ?_
  rcases closingLine_ok sound.toRoomy order line with ⟨init, rfl, rfl, blank⟩ | inserted
  · have place : w.chain.order = init ++ anchor :: (body.closer :: right) := by simpa using order
    refine putAllBefore_full sound place ?_
    rintro rfl
    rw [List.nil_append, List.mem_singleton] at opener
    rw [opener, blank] at seen
    cases seen
  · exact putAllBefore_full (inserted.sound sound) inserted.order some

theorem addConstructor_full {d : ClassDecl} {propertyIndent : Text} {statements : List (List Token)}
    (sound : w.chain.Sound) (ends : ∀ p ∈ d.properties, p.terminator ∈ w.chain.order ∧
      w.chain.tokenIs (·.isPunctuation ';') p.terminator = true) :
    FailsIn Full (addConstructor d propertyIndent indent statements) w := by
  unfold addConstructor
  cases last : d.properties.getLast? with
  | none => exact failsIn_of_ok (a := ()) (pure_ok.mpr ⟨rfl, rfl⟩)
  | some p =>
    obtain ⟨member, semicolon⟩ := ends p (List.mem_of_getLast? last)
    obtain ⟨left, right, order⟩ := List.append_of_mem member
    obtain ⟨fillers, rest, rfl, -, final⟩ :=
      lineTail_eq sound.wellFormed order (not_comment_of_semicolon semicolon)
    refine .bind (failsIn_of_ok (look_ok.mpr ⟨rfl, rfl⟩)) fun anchor w₁ found => ?_
    obtain ⟨tail, rfl⟩ := look_ok.mp found
    refine .bind (failsIn_of_ok (look_ok.mpr ⟨rfl, rfl⟩)) fun separator w₁ found => ?_
    obtain ⟨-, rfl⟩ := look_ok.mp found
    refine putAllAfter_full sound ?_
    rw [order, ← Except.ok.inj tail, ← List.cons_append]
    exact List.mem_append_right _ (List.mem_append_left _ (List.mem_of_getLast? final))

end ConstructorDefaults

end Restyle

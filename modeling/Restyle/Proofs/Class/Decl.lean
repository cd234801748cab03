import Restyle.Proofs.Chain.Refinement
import Restyle.Proofs.Class.Header
import Restyle.Proofs.Group.Balance

/-!
# Class declarations in the order of a chain

A declaration is a keyword, a header, an opening brace, a forest and the closing brace, one after
another (`ClassAt`). `startingAt?_some` says that this is what is read at a keyword, and `mem_all`
that all such declarations are found.
-/

namespace Restyle
open Trail (IsPath)
open Outcome

namespace ClassDecl
variable {c : Chain} {k b e : NodeId} {before header rest : List NodeId} {inside : Forest}

def membersOf (c : Chain) (inside : Forest) : List Member :=
  (Member.runs (Member.isEnd c) (inside.items.filter fun i => !Member.isFiller c i)).map
    (Member.ofItems c)

theorem ofBody_eq (wf : c.WellFormed) (opens : Group.Opens c b inside e) :
    Member.ofBody c (.mk b e inside.groups) = .ok (membersOf c inside) := by
  obtain ⟨⟨brackets, fits, -⟩, path⟩ := opens
  cases same : inside.ids with
  | nil =>
    obtain rfl := Forest.eq_nil_of_ids same
    have next : c.next? b = some e := by
      rw [same] at path
      exact (Trail.isPath_cons_cons.mp path).1
    simp [Member.ofBody, Group.opener, Group.closer, Chain.next_ok.mpr next, bind, Except.bind,
      membersOf, Forest.items, Member.runs, pure, Except.pure]
  | cons first tail =>
    have next : c.next? b = some first := by
      rw [same] at path
      exact (Trail.isPath_cons_cons.mp path).1
    have previous : c.previous? e = some (tail.getLastD first) := by
      have last := path.step_getLastD
      rw [same, List.getLastD_cons] at last
      exact (wf.symmetric _ e).mp last
    have known := wf.inRange b first (.inl next)
    have nodup := wf.path_nodup path
    have different : first ≠ e := by
      rintro rfl
      rw [same] at nodup
      simp at nodup
    have pathInside : IsPath c.next? inside.ids := path.of_cons.left
    have ends : inside.ids.getLast? = some (tail.getLastD first) := by
      rw [same, List.getLast?_cons, List.getLastD_eq_getLast?]
    have items := Item.sequence_of_forest wf fits pathInside known (by rw [same]; rfl) ends
    generalize tail.getLastD first = last at previous items
    simp [Member.ofBody, Group.opener, Group.closer, Chain.next_ok.mpr next,
      Chain.previous_ok.mpr previous, different, items, bind, Except.bind, membersOf, pure,
      Except.pure]

/-- The word `class` at `k` declares a class with the forest `inside` between its braces. -/
structure ClassAt (c : Chain) (before : List NodeId) (k : NodeId) (header : List NodeId)
    (b : NodeId) (inside : Forest) (e : NodeId) (rest : List NodeId) : Prop where
  order : c.order = before ++ k :: (header ++ b :: (inside.ids ++ e :: rest))
  keyword : c.tokenIs (·.isKeyword "class") k = true
  declared : declaredAfter c before = true
  quiet : ∀ x ∈ header, c.tokenIs endsHeader x = false
  brace : c.tokenIs (·.isPunctuation '{') b = true
  fits : (Forest.group b inside e .nil).Fits c

def ofClassAt (c : Chain) (k : NodeId) (header : List NodeId) (b : NodeId) (inside : Forest)
    (e : NodeId) : ClassDecl where
  keyword := k
  hasParent := header.any (c.tokenIs (·.isKeyword "extends"))
  body := .mk b e inside.groups
  members := membersOf c inside

theorem endsHeader_of_keyword (keyword : c.tokenIs (·.isKeyword "class") k = true) :
    c.tokenIs endsHeader k = false := by
  obtain ⟨t, token, keyword⟩ := Chain.tokenIs_iff.mp keyword
  simp only [Token.isKeyword, Bool.and_eq_true, beq_iff_eq] at keyword
  simp [Chain.tokenIs_of_token? token, endsHeader, Token.isPunctuation, keyword.1]

theorem endsHeader_of_brace (brace : c.tokenIs (·.isPunctuation '{') b = true) :
    c.tokenIs endsHeader b = true := by
  obtain ⟨t, token, brace⟩ := Chain.tokenIs_iff.mp brace
  simp [Chain.tokenIs_of_token? token, endsHeader, brace]

theorem extends_of_keyword (keyword : c.tokenIs (·.isKeyword "class") k = true) :
    c.tokenIs (·.isKeyword "extends") k = false := by
  obtain ⟨t, token, keyword⟩ := Chain.tokenIs_iff.mp keyword
  simp only [Token.isKeyword, Bool.and_eq_true, beq_iff_eq, Text.sameIgnoringCase] at keyword
  simp only [Chain.tokenIs_of_token? token, Token.isKeyword, Text.sameIgnoringCase, keyword.2]
  simp

theorem any_visible_extends : (c.visible header).any (c.tokenIs (·.isKeyword "extends")) =
    header.any (c.tokenIs (·.isKeyword "extends")) := by
  rw [Chain.visible, List.any_filter]
  congr 1
  funext x
  cases same : c.tokenIs (·.isKeyword "extends") x with
  | false => simp
  | true =>
    obtain ⟨t, token, keyword⟩ := Chain.tokenIs_iff.mp same
    simp only [Token.isKeyword, Bool.and_eq_true, beq_iff_eq] at keyword
    simp [Chain.isWhitespace, Chain.tokenIs_of_token? token, Token.isWhitespace, keyword.1]

structure HeaderAt (c : Chain) (before : List NodeId) (k : NodeId) (header : List NodeId)
    (b : NodeId) (rest : List NodeId) : Prop where
  order : c.order = before ++ k :: (header ++ b :: rest)
  keyword : c.tokenIs (·.isKeyword "class") k = true
  declared : declaredAfter c before = true
  quiet : ∀ x ∈ header, c.tokenIs endsHeader x = false
  brace : c.tokenIs (·.isPunctuation '{') b = true

theorem opens_of_brace (brace : c.tokenIs (·.isPunctuation '{') b = true) : c.opens b = true := by
  obtain ⟨t, token, brace⟩ := Chain.tokenIs_iff.mp brace
  simp only [Token.isPunctuation, Bool.and_eq_true, beq_iff_eq] at brace
  simp [Chain.opens, Chain.tokenIs_of_token? token, Token.closer?, brace.1, brace.2]

theorem ClassAt.headerAt (at' : ClassAt c before k header b inside e rest) :
    HeaderAt c before k header b (inside.ids ++ e :: rest) :=
  ⟨at'.order, at'.keyword, at'.declared, at'.quiet, at'.brace⟩

theorem HeaderAt.find?_endsHeader (at' : HeaderAt c before k header b rest) :
    (header ++ b :: rest).find? (c.tokenIs endsHeader) = some b := by
  rw [List.find?_eq_some_iff_append]
  exact ⟨endsHeader_of_brace at'.brace, header, rest, rfl, by simpa using at'.quiet⟩

section ClassAt
variable (wf : c.WellFormed)
include wf

/-- The walk over a header ends at the first mark that ends one. -/
theorem last_header_of_find? {after : List NodeId} (order : c.order = before ++ k :: after)
    (keyword : c.tokenIs (·.isKeyword "class") k = true)
    (first : after.find? (c.tokenIs endsHeader) = some b) : (ClassDecl.header c k).last = b := by
  obtain ⟨stop, header, rest, rfl, quiet⟩ := List.find?_eq_some_iff_append.mp first
  obtain ⟨known, run⟩ := wf.run_of_order order
  have last := Trail.getLast_toList (ClassDecl.header c k)
  rw [header_of_split wf known (endsHeader_of_keyword keyword) (by simpa using quiet) run stop,
    ← List.cons_append, List.getLast?_concat] at last
  exact (Option.some.inj last).symm

/-- Without such a mark it ends at the last visible node. -/
theorem last_header_of_quiet {after : List NodeId} (order : c.order = before ++ k :: after)
    (keyword : c.tokenIs (·.isKeyword "class") k = true)
    (quiet : ∀ x ∈ after, c.tokenIs endsHeader x = false) :
    (ClassDecl.header c k).last = (c.visible after).getLastD k := by
  obtain ⟨known, run⟩ := wf.run_of_order order
  have last := Trail.getLast_toList (ClassDecl.header c k)
  rw [header_of_quiet wf known (endsHeader_of_keyword keyword) quiet run, List.getLast?_cons] at last
  rw [← Option.some.inj last, List.getLastD_eq_getLast?]

theorem HeaderAt.toList_header (at' : HeaderAt c before k header b rest) :
    (ClassDecl.header c k).toList = k :: (c.visible header ++ [b]) := by
  obtain ⟨known, run⟩ := wf.run_of_order at'.order
  exact header_of_split wf known (endsHeader_of_keyword at'.keyword) at'.quiet run
    (endsHeader_of_brace at'.brace)

theorem HeaderAt.last_header (at' : HeaderAt c before k header b rest) :
    (ClassDecl.header c k).last = b :=
  last_header_of_find? wf at'.order at'.keyword at'.find?_endsHeader

theorem ClassAt.opens (at' : ClassAt c before k header b inside e rest) :
    Group.Opens c b inside e := by
  have member : k ∈ c.order := by simp [at'.order]
  have run := wf.order_isRun_of_mem member
  have split : c.order = before ++ k :: header ++ (b :: (inside.ids ++ [e]) ++ rest) := by
    simp [at'.order]
  rw [split] at run
  exact ⟨at'.fits, run.path.right.left⟩

theorem startingAt?_of_classAt (at' : ClassAt c before k header b inside e rest) :
    startingAt? c k = .ok (some (ofClassAt c k header b inside e)) := by
  obtain ⟨known, run⟩ := wf.run_of_order at'.order
  have list := at'.headerAt.toList_header wf
  have last := at'.headerAt.last_header wf
  have passed : (ClassDecl.header c k).passed.reverse = k :: c.visible header := by
    have := Trail.toList_eq_passed (ClassDecl.header c k)
    rw [list, last, ← List.cons_append] at this
    exact (List.append_cancel_right this).symm
  have parent : (ClassDecl.header c k).passed.any (c.tokenIs (·.isKeyword "extends")) =
      header.any (c.tokenIs (·.isKeyword "extends")) := by
    rw [← List.any_reverse, passed, List.any_cons, extends_of_keyword at'.keyword, Bool.false_or]
    exact any_visible_extends
  have opens := at'.opens wf
  have parsed := (Group.parse_ok_iff wf).mpr ⟨inside, e, opens, rfl⟩
  simp [startingAt?, isDeclared_eq wf known run, at'.declared, last, at'.brace, parsed,
    ofBody_eq wf opens, parent, bind, Except.bind, pure, Except.pure, ofClassAt]

theorem HeaderAt.classAt (at' : HeaderAt c before k header b rest)
    (opens : Group.Opens c b inside e) :
    ∃ tail, ClassAt c before k header b inside e tail := by
  obtain ⟨-, run⟩ := wf.run_of_order at'.order
  have within : c.IsRun ((before ++ k :: header) ++ b :: rest) := by simpa using run
  obtain ⟨tail, same⟩ := within.prefix_of_path opens.path
  have same : rest = inside.ids ++ e :: tail := by simpa using same.symm
  exact ⟨tail, by rw [at'.order, same], at'.keyword, at'.declared, at'.quiet, at'.brace, opens.fits⟩

/-- At a header a class is read, unless its braces are not closed. -/
theorem HeaderAt.classAt_or_error (at' : HeaderAt c before k header b rest) :
    (∃ inside e tail, ClassAt c before k header b inside e tail ∧
      startingAt? c k = .ok (some (ofClassAt c k header b inside e))) ∨
    ∃ err, Group.parse c b = .error err ∧ startingAt? c k = .error err := by
  obtain ⟨known, run⟩ := wf.run_of_order at'.order
  cases parsed : Group.parse c b with
  | error err =>
    refine .inr ⟨err, rfl, ?_⟩
    simp [startingAt?, isDeclared_eq wf known run, at'.declared, at'.last_header wf, at'.brace,
      parsed, bind, Except.bind]
  | ok group =>
    cases group with
    | none =>
      have plain := (Group.parse_none_iff.mp parsed).2
      simp [opens_of_brace at'.brace] at plain
    | some g =>
      obtain ⟨inside, e, opens, -⟩ := (Group.parse_ok_iff wf).mp parsed
      obtain ⟨tail, found⟩ := at'.classAt wf opens
      exact .inl ⟨inside, e, tail, found, startingAt?_of_classAt wf found⟩

/-- Where a header is read without an error, it is that of a class. -/
theorem HeaderAt.exists_classAt {r : Option ClassDecl} (at' : HeaderAt c before k header b rest)
    (ok : startingAt? c k = .ok r) :
    ∃ inside e tail, ClassAt c before k header b inside e tail ∧
      r = some (ofClassAt c k header b inside e) := by
  rcases at'.classAt_or_error wf with ⟨inside, e, tail, found, read⟩ | ⟨err, -, failed⟩
  · rw [read] at ok
    exact ⟨inside, e, tail, found, (Except.ok.inj ok).symm⟩
  · rw [failed] at ok
    cases ok

/-- Without a header nothing is read. -/
theorem startingAt?_of_no_header (member : k ∈ c.order)
    (keyword : c.tokenIs (·.isKeyword "class") k = true)
    (absent : ∀ before header b rest, ¬ HeaderAt c before k header b rest) :
    startingAt? c k = .ok none := by
  obtain ⟨before, after, order⟩ := List.append_of_mem member
  obtain ⟨known, run⟩ := wf.run_of_order order
  cases declared : declaredAfter c before with
  | false =>
    simp [startingAt?, isDeclared_eq wf known run, declared, bind, Except.bind, pure, Except.pure]
  | true =>
    have dark : c.tokenIs (·.isPunctuation '{') (ClassDecl.header c k).last = false := by
      rw [Bool.eq_false_iff]
      intro brace
      cases first : after.find? (c.tokenIs endsHeader) with
      | none =>
        have quiet : ∀ x ∈ after, c.tokenIs endsHeader x = false := by
          simpa using List.find?_eq_none.mp first
        have ends := endsHeader_of_brace brace
        rw [last_header_of_quiet wf order keyword quiet] at ends
        rcases List.mem_cons.mp (List.getLastD_mem_cons (l := c.visible after) (a := k)) with
          same | inside
        · rw [same, endsHeader_of_keyword keyword] at ends
          simp at ends
        · rw [quiet _ (Chain.mem_visible.mp inside).1] at ends
          simp at ends
      | some b =>
        rw [last_header_of_find? wf order keyword first] at brace
        obtain ⟨-, header, rest, rfl, quiet⟩ := List.find?_eq_some_iff_append.mp first
        exact absent before header b rest ⟨order, keyword, declared, by simpa using quiet, brace⟩
    simp [startingAt?, isDeclared_eq wf known run, declared, dark, bind, Except.bind, pure,
      Except.pure]

end ClassAt

theorem startingAt?_isOpenGroup (wf : c.WellFormed) {err : ChainError} (member : k ∈ c.order)
    (keyword : c.tokenIs (·.isKeyword "class") k = true) (failed : startingAt? c k = .error err) :
    err.IsOpenGroup := by
  by_cases absent : ∀ before header b rest, ¬ HeaderAt c before k header b rest
  · rw [startingAt?_of_no_header wf member keyword absent] at failed
    cases failed
  · push Not at absent
    obtain ⟨before, header, b, rest, at'⟩ := absent
    have known : c.Known b := wf.known_of_mem_order (by simp [at'.order])
    rcases at'.classAt_or_error wf with ⟨_, _, _, -, read⟩ | ⟨err', parsed, failed'⟩
    · rw [read] at failed
      cases failed
    · rw [failed'] at failed
      rw [← Except.error.inj failed]
      exact Group.parse_isOpenGroup wf known parsed

/-! ### All declarations -/

theorem startingAt?_some (wf : c.WellFormed) {d : ClassDecl} (member : k ∈ c.order)
    (keyword : c.tokenIs (·.isKeyword "class") k = true) (ok : startingAt? c k = .ok (some d)) :
    ∃ before header b inside e rest,
      ClassAt c before k header b inside e rest ∧ d = ofClassAt c k header b inside e := by
  by_cases absent : ∀ before header b rest, ¬ HeaderAt c before k header b rest
  · simp [startingAt?_of_no_header wf member keyword absent] at ok
  · push Not at absent
    obtain ⟨before, header, b, rest, at'⟩ := absent
    obtain ⟨inside, e, tail, found, same⟩ := at'.exists_classAt wf ok
    exact ⟨before, header, b, inside, e, tail, found, Option.some.inj same⟩

theorem all_ok {ds : List ClassDecl} : all c = .ok ds ↔
    ∃ rs : List (Option ClassDecl),
      (c.order.filter (c.tokenIs (·.isKeyword "class"))).map (startingAt? c) = rs.map .ok ∧
      rs.filterMap id = ds := by
  simp only [all, bind_ok, mapM_ok, pure_ok]

/-- Only brackets that do not fit keep the declarations from being read. -/
theorem all_isOpenGroup (wf : c.WellFormed) {err : ChainError} (failed : all c = .error err) :
    err.IsOpenGroup := by
  unfold all at failed
  cases found : (c.order.filter (c.tokenIs (·.isKeyword "class"))).mapM (startingAt? c) with
  | ok rs =>
    simp only [found, bind, Except.bind] at failed
    cases failed
  | error err' =>
    simp only [found, bind, Except.bind] at failed
    obtain ⟨k, member, failed'⟩ := Outcome.mapM_error found
    obtain ⟨inside, keyword⟩ := List.mem_filter.mp member
    rw [← Except.error.inj failed]
    exact startingAt?_isOpenGroup wf inside keyword failed'

/-- The declarations are those of the classes in the chain. -/
theorem mem_all (wf : c.WellFormed) {ds : List ClassDecl} (ok : all c = .ok ds) {d : ClassDecl} :
    d ∈ ds ↔ ∃ before k header b inside e rest,
      ClassAt c before k header b inside e rest ∧ d = ofClassAt c k header b inside e := by
  obtain ⟨rs, read, rfl⟩ := all_ok.mp ok
  rw [List.mem_filterMap]
  constructor
  · rintro ⟨_, member, rfl⟩
    obtain ⟨k, keyword, start⟩ : ∃ k ∈ c.order.filter (c.tokenIs (·.isKeyword "class")),
        startingAt? c k = .ok (some d) := by
      rw [← List.mem_map, read, List.mem_map]
      exact ⟨_, member, rfl⟩
    obtain ⟨inside, keyword⟩ := List.mem_filter.mp keyword
    obtain ⟨before, header, b, inside, e, rest, at', same⟩ := startingAt?_some wf inside keyword start
    exact ⟨before, k, header, b, inside, e, rest, at', same⟩
  · rintro ⟨before, k, header, b, inside, e, rest, at', rfl⟩
    have member : k ∈ c.order.filter (c.tokenIs (·.isKeyword "class")) :=
      List.mem_filter.mpr ⟨by simp [at'.order], at'.keyword⟩
    have start := List.mem_map_of_mem (f := startingAt? c) member
    rw [startingAt?_of_classAt wf at', read, List.mem_map] at start
    obtain ⟨r, found, same⟩ := start
    exact ⟨r, found, Except.ok.inj same⟩

/-- Where all declarations can be read, a header is that of a class. -/
theorem HeaderAt.classAt_of_all (wf : c.WellFormed) {ds : List ClassDecl} (ok : all c = .ok ds)
    (at' : HeaderAt c before k header b rest) :
    ∃ inside e tail, ClassAt c before k header b inside e tail := by
  obtain ⟨rs, read, -⟩ := all_ok.mp ok
  have member : k ∈ c.order.filter (c.tokenIs (·.isKeyword "class")) :=
    List.mem_filter.mpr ⟨by simp [at'.order], at'.keyword⟩
  have start := List.mem_map_of_mem (f := startingAt? c) member
  rw [read, List.mem_map] at start
  obtain ⟨r, -, same⟩ := start
  obtain ⟨inside, e, tail, found, -⟩ := at'.exists_classAt wf same.symm
  exact ⟨inside, e, tail, found⟩

/-- They come in the order of their keywords. -/
theorem keywords_sublist (wf : c.WellFormed) {ds : List ClassDecl} (ok : all c = .ok ds) :
    (ds.map (·.keyword)).Sublist c.order := by
  obtain ⟨rs, read, rfl⟩ := all_ok.mp ok
  have named : ∀ k ∈ c.order.filter (c.tokenIs (·.isKeyword "class")), ∀ d,
      startingAt? c k = .ok (some d) → d.keyword = k := by
    intro k member d start
    obtain ⟨inside, keyword⟩ := List.mem_filter.mp member
    obtain ⟨before, header, b, inside, e, rest, -, rfl⟩ := startingAt?_some wf inside keyword start
    rfl
  clear ok
  refine List.Sublist.trans ?_ (List.filter_sublist (p := c.tokenIs (·.isKeyword "class")))
  generalize c.order.filter (c.tokenIs (·.isKeyword "class")) = ks at read named
  induction ks generalizing rs with
  | nil =>
    obtain rfl := List.map_eq_nil_iff.mp read.symm
    simp
  | cons k ks ih =>
    cases rs with
    | nil => simp at read
    | cons r rs =>
      obtain ⟨start, read⟩ := List.cons.inj read
      have rest := ih rs read fun k' member => named k' (List.mem_cons_of_mem k member)
      cases r with
      | none => exact rest.cons k
      | some d =>
        have same := named k List.mem_cons_self d start
        simpa [same] using rest

/-- A chain can be read if all braces after a header open a group. -/
theorem all_isOk (wf : c.WellFormed) (closed : ∀ before k header b rest,
    HeaderAt c before k header b rest → ∃ inside e, Group.Opens c b inside e) :
    ∃ ds, all c = .ok ds := by
  have read : ∀ k ∈ c.order.filter (c.tokenIs (·.isKeyword "class")), ∃ r,
      startingAt? c k = .ok r := by
    intro k member
    obtain ⟨inside, keyword⟩ := List.mem_filter.mp member
    by_cases absent : ∀ before header b rest, ¬ HeaderAt c before k header b rest
    · exact ⟨none, startingAt?_of_no_header wf inside keyword absent⟩
    · push Not at absent
      obtain ⟨before, header, b, rest, at'⟩ := absent
      obtain ⟨inside, e, opens⟩ := closed before k header b rest at'
      obtain ⟨tail, found⟩ := at'.classAt wf opens
      exact ⟨_, startingAt?_of_classAt wf found⟩
  simp only [all_ok]
  generalize c.order.filter (c.tokenIs (·.isKeyword "class")) = ks at read
  induction ks with
  | nil => exact ⟨_, [], rfl, rfl⟩
  | cons k ks ih =>
    obtain ⟨r, start⟩ := read k List.mem_cons_self
    obtain ⟨ds, rs, same, rfl⟩ := ih fun k' member => read k' (List.mem_cons_of_mem k member)
    exact ⟨_, r :: rs, by simp [start, same], rfl⟩

end ClassDecl

end Restyle

import Survol.Sql.TableNames

/-!
# The dependencies of a query

The walk finds a table if and only if the keyword before it is one of seven, and the regular
expressions accept its name and its alias. Sub-selects are walked wherever they are, since the two
flags are down at their start, whatever comes before.

## Main definitions

* `Finds` — the tables that a part of a query gives, from any state of the walk.
* `statement` — the statement of a query.

## Main results

* `finds_query` — the tables that the walk finds in a query.
* `tableDependencies_iff` — the queries whose tables are all found.
-/

open PyText

namespace Survol.Sql

/-! ## Steps of the walk -/

theorem selectLoop_of_isNoise {tok : Tok} (h : isNoise tok = true) (inFrom wasFrom : Bool)
    (ts : List Tok) : selectLoop inFrom wasFrom (tok :: ts) = selectLoop inFrom wasFrom ts := by
  rw [selectLoop, if_pos h]

/-- A leaf resets the flag `wasFrom`, and has no table. -/
theorem selectLoop_leaf {ttype : Ttype} {value : Text} (h : isNoise (.leaf ttype value) = false)
    (inFrom wasFrom : Bool) (ts : List Tok) :
    selectLoop inFrom wasFrom (.leaf ttype value :: ts) =
      selectLoop (isFrom (.leaf ttype value)) false ts := by
  rw [selectLoop, if_neg (by rw [h]; exact Bool.false_ne_true)]
  simp [Tok.ttype?, processSelectTokens]

theorem Blank.isNoise_tok (b : Blank) : isNoise b.tok = true := by
  rw [Blank.tok]
  cases b.newline <;> rfl

theorem selectLoop_gap (g : Gap) (inFrom wasFrom : Bool) (ts : List Tok) :
    selectLoop inFrom wasFrom (g.tokens ++ ts) = selectLoop inFrom wasFrom ts := by
  induction g with
  | nil => rfl
  | cons b g ih =>
    rw [Gap.tokens, List.map_cons, List.cons_append, selectLoop_of_isNoise b.isNoise_tok,
      ← Gap.tokens, ih]

theorem isTableKeyword_of_mem {value : Text} (h : upper value ∈ fromKeywords) :
    IsTableKeyword value := by
  rw [IsTableKeyword]
  revert h
  generalize upper value = u
  revert u
  decide

theorem isFrom_of_plain {ttype : Ttype} {value : Text}
    (h : ttype = .keyword → ¬ IsTableKeyword value) : isFrom (.leaf ttype value) = false := by
  rw [isFrom, Bool.and_eq_false_iff, decide_eq_false_iff_not, decide_eq_false_iff_not]
  by_cases ht : ttype = .keyword
  · exact .inr fun hmem => h ht (isTableKeyword_of_mem hmem)
  · exact .inl fun hsome => ht (Option.some.inj hsome)

/-- A leaf that is no keyword before tables, when no table is expected. -/
theorem selectLoop_plain {ttype : Ttype} {value : Text}
    (h : ttype = .keyword → ¬ IsTableKeyword value) (ts : List Tok) :
    selectLoop false false (.leaf ttype value :: ts) = selectLoop false false ts := by
  cases hn : isNoise (.leaf ttype value) with
  | true => exact selectLoop_of_isNoise hn false false ts
  | false => rw [selectLoop_leaf hn, isFrom_of_plain h]

/-- A group, when no table is expected. -/
theorem selectLoop_group (cls : GroupClass) (sub ts : List Tok) :
    selectLoop false false (.group cls sub :: ts) =
      selectLoop false false sub ++ selectLoop false false ts := rfl

theorem selectLoop_name (n : Name) (ts : List Tok) :
    selectLoop false false (n.tokens ++ ts) = selectLoop false false ts := by
  rw [Name.tokens]
  induction n.parts with
  | nil => rfl
  | cons p parts ih =>
    have hp : (if p.separator then Ttype.punctuation else .other) = .keyword →
        ¬ IsTableKeyword p.text := by
      cases p.separator <;> simp
    rw [List.map_cons, List.cons_append, NamePart.tok, selectLoop_plain hp, ih]

theorem not_isTableKeyword_asWord {w : Text}
    (h : w ∈ ["AS".toList, "As".toList, "aS".toList, "as".toList]) : ¬ IsTableKeyword w := by
  simp only [List.mem_cons, List.not_mem_nil, or_false] at h
  rw [IsTableKeyword]
  rcases h with rfl | rfl | rfl | rfl <;> decide

@[simp] theorem selectLoop_nil (inFrom wasFrom : Bool) : selectLoop inFrom wasFrom [] = [] := rfl

theorem selectLoop_alias (a : Alias) : selectLoop false false a.tokens = [] := by
  have hname : selectLoop false false [.group .identifier a.name.tokens] = [] := by
    have h := selectLoop_name a.name []
    rw [List.append_nil] at h
    rw [selectLoop_group, h]
    rfl
  rw [Alias.tokens, List.append_assoc, selectLoop_gap]
  cases hw : a.asWord with
  | none => exact hname
  | some p =>
    have hplain := not_isTableKeyword_asWord (a.isAs p hw).1
    change selectLoop false false (.leaf .keyword p.1 :: (p.2.tokens ++ _)) = []
    rw [selectLoop_plain fun _ => hplain, selectLoop_gap, hname]

theorem selectLoop_tableRef (t : TableRef) : selectLoop false false t.tokens = [] := by
  rw [TableRef.tokens, selectLoop_name]
  cases t.alias? with
  | none => rfl
  | some a => exact selectLoop_alias a

/-! ## The elements of a list -/

@[simp] theorem seenNames_nil : seenNames [] = [] := rfl

theorem seenNames_append (ps qs : List Position) :
    seenNames (ps ++ qs) = seenNames ps ++ seenNames qs := by
  rw [seenNames, List.filter_append, List.map_append, ← seenNames, ← seenNames]

theorem isFrom_keyword (keyword : Text) :
    isFrom (.leaf .keyword keyword) = decide (upper keyword ∈ fromKeywords) := by
  rw [isFrom, Tok.ttype?, Tok.value]
  rfl

/-- The tables in the sub-select of an element. -/
def Ref.inside : Ref → List Position
  | .table _ => []
  | .sub query => query.positions
  | .subAs query _ => query.positions

/-- The name that is read in the text of an element. -/
def Ref.read : Ref → Option Text
  | .table t => if t.plain then some t.name.text else none
  | _ => none

theorem parseAppend_parenthesis (rest : Text) : parseAppend ('(' :: rest) = none := rfl

theorem parseAppend_tok (r : Ref) : parseAppend r.tok.value = r.read := by
  cases r with
  | table t =>
    rw [Ref.tok, Tok.value, TableRef.valueOf_tokens, parseAppend_text]
    rfl
  | sub query => exact parseAppend_parenthesis _
  | subAs query a => exact parseAppend_parenthesis _

theorem isNoise_tok (r : Ref) : isNoise r.tok = false := by
  cases r <;> rfl

/-- What is found at an element after a keyword that is known. -/
theorem seenNames_of_mem {keyword : Text} (h : upper keyword ∈ fromKeywords) (r : Ref) :
    seenNames (r.positions keyword) =
      match r.read with
      | some name => [name]
      | none => seenNames r.inside := by
  cases r with
  | table t =>
    rw [Ref.positions, Ref.read, seenNames, List.filter_cons, Position.seen]
    cases t.plain <;> simp [h, Ref.inside]
  | sub query => rfl
  | subAs query a => rfl

/-- What is found at an element after another keyword. -/
theorem seenNames_of_not_mem {keyword : Text} (h : upper keyword ∉ fromKeywords) (r : Ref) :
    seenNames (r.positions keyword) = seenNames r.inside := by
  cases r with
  | table t => simp [Ref.positions, Ref.inside, seenNames, Position.seen, h]
  | sub query => rfl
  | subAs query a => rfl

/-- The walk inside an element finds the tables of its sub-select. -/
def Ref.Walked (r : Ref) : Prop := processSelectTokens r.tok = seenNames r.inside

theorem listLoop_ref {keyword : Text} (h : upper keyword ∈ fromKeywords) {r : Ref} (hr : r.Walked)
    (ts : List Tok) :
    listLoop (r.tok :: ts) = seenNames (r.positions keyword) ++ listLoop ts := by
  rw [listLoop, isNoise_tok, parseAppend_tok, seenNames_of_mem h, hr]
  cases r.read <;> rfl

theorem selectLoop_ref_of_not_mem {keyword : Text} (h : upper keyword ∉ fromKeywords) {r : Ref}
    (hr : r.Walked) (ts : List Tok) :
    selectLoop false false (r.tok :: ts) =
      seenNames (r.positions keyword) ++ selectLoop false false ts := by
  rw [seenNames_of_not_mem h, ← hr]
  cases r <;> rfl

theorem selectLoop_ref_of_mem {keyword : Text} (h : upper keyword ∈ fromKeywords) {r : Ref}
    (hr : r.Walked) :
    ∃ inFrom wasFrom, ∀ ts, selectLoop true false (r.tok :: ts) =
      seenNames (r.positions keyword) ++ selectLoop inFrom wasFrom ts := by
  have hread := parseAppend_tok r
  rw [seenNames_of_mem h, ← hr]
  cases r with
  | table t =>
    rw [Ref.tok] at hread ⊢
    cases hn : Ref.read (.table t) with
    | none =>
      refine ⟨false, true, fun ts => ?_⟩
      rw [selectLoop, hread, hn]
      rfl
    | some name =>
      refine ⟨true, true, fun ts => ?_⟩
      rw [selectLoop, hread, hn]
      rfl
  | sub query => exact ⟨false, true, fun ts => rfl⟩
  | subAs query a => exact ⟨false, true, fun ts => rfl⟩

/-- The elements of a list. -/
def Refs.toList : Refs → List Ref
  | .one r => [r]
  | .cons r _ _ rest => r :: rest.toList

theorem listLoop_of_isNoise {tok : Tok} (h : isNoise tok = true) (ts : List Tok) :
    listLoop (tok :: ts) = listLoop ts := by
  rw [listLoop, if_pos h]

theorem listLoop_gap (g : Gap) (ts : List Tok) : listLoop (g.tokens ++ ts) = listLoop ts := by
  induction g with
  | nil => rfl
  | cons b g ih =>
    rw [Gap.tokens, List.map_cons, List.cons_append, listLoop_of_isNoise b.isNoise_tok,
      ← Gap.tokens, ih]

theorem listLoop_items {keyword : Text} (h : upper keyword ∈ fromKeywords) :
    ∀ rs : Refs, (∀ r ∈ rs.toList, r.Walked) →
      listLoop rs.items = seenNames (rs.positions keyword)
  | .one r, hr => by
    rw [Refs.items, Refs.positions, listLoop_ref h (hr r (List.mem_singleton.2 rfl))]
    exact List.append_nil _
  | .cons r before after rest, hr => by
    rw [Refs.items, Refs.positions, listLoop_ref h (hr r List.mem_cons_self), listLoop_gap,
      listLoop_of_isNoise rfl, listLoop_gap, seenNames_append,
      listLoop_items h rest fun r' hr' => hr r' (List.mem_cons_of_mem r hr')]

theorem selectLoop_items {keyword : Text} (h : upper keyword ∉ fromKeywords) :
    ∀ rs : Refs, (∀ r ∈ rs.toList, r.Walked) →
      selectLoop false false rs.items = seenNames (rs.positions keyword)
  | .one r, hr => by
    rw [Refs.items, Refs.positions, selectLoop_ref_of_not_mem h (hr r (List.mem_singleton.2 rfl))]
    exact List.append_nil _
  | .cons r before after rest, hr => by
    rw [Refs.items, Refs.positions, selectLoop_ref_of_not_mem h (hr r List.mem_cons_self),
      selectLoop_gap, selectLoop_of_isNoise rfl, selectLoop_gap, seenNames_append,
      selectLoop_items h rest fun r' hr' => hr r' (List.mem_cons_of_mem r hr')]

/-- What is found in a list after a keyword. -/
theorem selectLoop_refs (keyword : Text) (rs : Refs) (hrs : ∀ r ∈ rs.toList, r.Walked) :
    ∃ inFrom wasFrom, ∀ ts,
      selectLoop (isFrom (.leaf .keyword keyword)) false (rs.tok :: ts) =
        seenNames (rs.positions keyword) ++ selectLoop inFrom wasFrom ts := by
  rw [isFrom_keyword]
  by_cases h : upper keyword ∈ fromKeywords
  · rw [decide_eq_true h]
    cases rs with
    | one r => exact selectLoop_ref_of_mem h (hrs r (List.mem_singleton.2 rfl))
    | cons r before after rest =>
      refine ⟨true, true, fun ts => ?_⟩
      rw [← listLoop_items h _ hrs]
      rfl
  · rw [decide_eq_false h]
    cases rs with
    | one r =>
      exact ⟨false, false, selectLoop_ref_of_not_mem h (hrs r (List.mem_singleton.2 rfl))⟩
    | cons r before after rest =>
      refine ⟨false, false, fun ts => ?_⟩
      rw [← selectLoop_items h _ hrs]
      rfl

/-! ## The tables that the walk finds -/

/-- A part of a query, from any state of the walk. -/
def Finds (tokens : List Tok) (ps : List Position) : Prop :=
  ∀ inFrom wasFrom, ∃ inFrom' wasFrom', ∀ ts, selectLoop inFrom wasFrom (tokens ++ ts) =
    seenNames ps ++ selectLoop inFrom' wasFrom' ts

theorem Finds.append {xs ys : List Tok} {ps qs : List Position} (hx : Finds xs ps)
    (hy : Finds ys qs) : Finds (xs ++ ys) (ps ++ qs) := by
  intro a b
  obtain ⟨a', b', hx⟩ := hx a b
  obtain ⟨a'', b'', hy⟩ := hy a' b'
  refine ⟨a'', b'', fun ts => ?_⟩
  rw [List.append_assoc, hx, hy, seenNames_append, List.append_assoc]

theorem Finds.gap (g : Gap) : Finds g.tokens [] := fun a b => ⟨a, b, selectLoop_gap g a b⟩

/-- A keyword with a list of tables. -/
theorem Finds.refs (keyword : Text) (after : Gap) (rs : Refs) (hrs : ∀ r ∈ rs.toList, r.Walked) :
    Finds (.leaf .keyword keyword :: (after.tokens ++ [rs.tok])) (rs.positions keyword) := by
  intro a b
  obtain ⟨a', b', h⟩ := selectLoop_refs keyword rs hrs
  refine ⟨a', b', fun ts => ?_⟩
  rw [List.cons_append, List.append_assoc, selectLoop_leaf rfl, selectLoop_gap]
  exact h ts

/-- A leaf of another kind, with an expression. -/
theorem Finds.leaf {ttype : Ttype} {value : Text} (hn : isNoise (.leaf ttype value) = false)
    (hplain : ttype = .keyword → ¬ IsTableKeyword value) {body : List Tok} {ps : List Position}
    (hbody : ∀ ts, selectLoop false false (body ++ ts) =
      seenNames ps ++ selectLoop false false ts) : Finds (.leaf ttype value :: body) ps := by
  intro a b
  refine ⟨false, false, fun ts => ?_⟩
  rw [List.cons_append, selectLoop_leaf hn, isFrom_of_plain hplain, hbody]

/-- The part `WHERE`. -/
theorem Finds.wherePart {sub : List Tok} {ps : List Position}
    (hsub : selectLoop false false sub = seenNames ps) : Finds [.group .whereClause sub] ps := by
  intro a b
  refine ⟨false, a || b, fun ts => ?_⟩
  rw [← hsub]
  cases a <;> cases b <;> rfl

/-- A parenthesis around a query. -/
theorem processSelectTokens_parenthesis {tokens : List Tok} {ps : List Position}
    (h : Finds tokens ps) : processSelectTokens (parenthesis tokens) = seenNames ps := by
  obtain ⟨a, b, h⟩ := h false false
  rw [parenthesis, processSelectTokens, selectLoop_of_isNoise rfl, h, selectLoop_of_isNoise rfl,
    selectLoop_nil, List.append_nil]

mutual

theorem selectLoop_expr : ∀ (e : Expr) (ts : List Tok),
    selectLoop false false (e.tokens ++ ts) = seenNames e.positions ++ selectLoop false false ts
  | .nil, ts => by
    rw [Expr.tokens, Expr.positions]
    rfl
  | .leaf ttype value plain rest, ts => by
    rw [Expr.tokens, Expr.positions, List.cons_append, selectLoop_plain plain,
      selectLoop_expr rest ts]
  | .group cls body rest, ts => by
    have hbody := selectLoop_expr body []
    rw [List.append_nil, selectLoop_nil, List.append_nil] at hbody
    rw [Expr.tokens, Expr.positions, List.cons_append, selectLoop_group, hbody,
      selectLoop_expr rest ts, seenNames_append, List.append_assoc]
  | .sub query rest, ts => by
    have hquery := processSelectTokens_parenthesis (finds_query query)
    rw [parenthesis, processSelectTokens] at hquery
    rw [Expr.tokens, Expr.positions, List.cons_append, parenthesis, selectLoop_group, hquery,
      selectLoop_expr rest ts, seenNames_append, List.append_assoc]

theorem finds_clause : ∀ c : Clause, Finds c.tokens c.positions
  | .none => by
    rw [Clause.tokens, Clause.positions]
    exact Finds.gap []
  | .some gap keyword body => by
    rw [Clause.tokens, Clause.positions]
    exact (Finds.gap gap).append
      (Finds.leaf rfl (fun _ => keyword.plain) (selectLoop_expr body))

theorem finds_where : ∀ c : Clause, Finds c.whereTokens c.positions
  | .none => by
    rw [Clause.whereTokens, Clause.positions]
    exact Finds.gap []
  | .some gap keyword body => by
    have hbody := selectLoop_expr body []
    rw [List.append_nil, selectLoop_nil, List.append_nil] at hbody
    rw [Clause.whereTokens, Clause.positions]
    refine (Finds.gap gap).append (Finds.wherePart ?_)
    rw [selectLoop_plain fun _ => keyword.plain, hbody]

theorem walked_ref : ∀ r : Ref, r.Walked
  | .table t => by
    rw [Ref.Walked, Ref.tok, Ref.inside, processSelectTokens, selectLoop_tableRef]
    rfl
  | .sub query => by
    rw [Ref.Walked, Ref.tok, Ref.inside]
    exact processSelectTokens_parenthesis (finds_query query)
  | .subAs query a => by
    have hquery := processSelectTokens_parenthesis (finds_query query)
    rw [parenthesis, processSelectTokens] at hquery
    rw [Ref.Walked, Ref.tok, Ref.inside, processSelectTokens, parenthesis, selectLoop_group, hquery,
      selectLoop_alias, List.append_nil]

theorem walked_refs : ∀ rs : Refs, ∀ r ∈ rs.toList, r.Walked
  | .one r => by
    intro r' hr'
    rw [List.mem_singleton.1 hr']
    exact walked_ref r
  | .cons r before after rest => by
    intro r' hr'
    rcases List.mem_cons.1 hr' with hr' | hr'
    · rw [hr']
      exact walked_ref r
    · exact walked_refs rest r' hr'

theorem finds_joins : ∀ js : Joins, Finds js.tokens js.positions
  | .nil => by
    rw [Joins.tokens, Joins.positions]
    exact Finds.gap []
  | .cons gap join isJoin after refs condition rest => by
    have h := (Finds.gap gap).append ((Finds.refs join after refs (walked_refs refs)).append
      ((finds_clause condition).append (finds_joins rest)))
    simp only [List.append_assoc, List.cons_append, List.nil_append] at h
    rw [Joins.tokens, Joins.positions]
    exact h

theorem finds_query : ∀ q : Query, Finds q.tokens q.positions
  | .mk gap select isSelect columns fromWord isFrom after refs joins wherePart tail close => by
    have h := (Finds.gap gap).append (((@Finds.leaf .dml select rfl
      (fun h => nomatch h) _ _ (selectLoop_expr columns)).append
        (Finds.refs fromWord after refs (walked_refs refs))).append
          ((finds_joins joins).append ((finds_where wherePart).append
            ((finds_clause tail).append (Finds.gap close)))))
    simp only [List.append_assoc, List.cons_append, List.nil_append, List.append_nil] at h
    rw [Query.tokens, Query.positions]
    exact h

end

/-! ## The dependencies of a query -/

/-- The statement of a query, which may end with a semicolon. -/
def statement (q : Query) (semicolon : Bool) : List Tok :=
  q.tokens ++ if semicolon then [.leaf .punctuation [';']] else []

theorem processSelectTokens_statement (q : Query) (semicolon : Bool) :
    processSelectTokens (.group .other (statement q semicolon)) = seenNames q.positions := by
  obtain ⟨a, b, h⟩ := finds_query q false false
  rw [statement, processSelectTokens, h]
  cases semicolon <;> exact List.append_nil _

theorem getStatementType_gap (g : Gap) (ts : List Tok) :
    getStatementType (g.tokens ++ ts) = getStatementType ts := by
  induction g with
  | nil => rfl
  | cons b g ih =>
    rw [Gap.tokens, List.map_cons, List.cons_append, Blank.tok, ← Gap.tokens]
    cases b.newline <;> exact ih

theorem getStatementType_statement (q : Query) (semicolon : Bool) :
    getStatementType (statement q semicolon) = "SELECT".toList := by
  obtain ⟨gap, select, isSelect, columns, fromWord, isFrom, after, refs, joins, wherePart, tail,
    close⟩ := q
  rw [statement, Query.tokens, List.append_assoc, getStatementType_gap]
  exact isSelect

theorem strip_statement (q : Query) (semicolon : Bool) :
    strip (valueOf (statement q semicolon)) ≠ [] := by
  obtain ⟨gap, select, isSelect, columns, fromWord, isFrom, after, refs, joins, wherePart, tail,
    close⟩ := q
  intro h
  have hall : ∀ c ∈ select, isBlank c = true := by
    intro c hc
    refine isBlank_of_strip h c ?_
    rw [statement, Query.tokens, valueOf_append, valueOf_append, valueOf, Tok.value]
    simp [hc]
  have hupper : ∀ c ∈ "SELECT".toList, isBlank c = true := by
    intro c hc
    rw [← isSelect, upper, List.mem_map] at hc
    obtain ⟨d, hd, rfl⟩ := hc
    exact @forall_isBlank (fun d => isBlank d.toUpper = true) (by decide) d (hall d hd)
  exact absurd (hupper 'S' (by decide)) (by decide)

/-- The dependencies of a query are the tables that the walk finds. -/
theorem tableDependencies_statement (q : Query) (semicolon : Bool) :
    tableDependencies [statement q semicolon] = some (uniqRes (seenNames q.positions)) := by
  rw [tableDependencies, if_neg (strip_statement q semicolon), getStatementType_statement,
    statementToFunc, if_pos rfl]
  simp only [Option.bind_eq_bind, Option.bind_some, tableDependencies,
    processSelectTokens_statement, List.append_nil]

theorem uniqRes_eq_iff (xs ys : List Text) :
    uniqRes xs = uniqRes ys ↔ (xs.map upper).toFinset = (ys.map upper).toFinset := by
  refine ⟨fun h => ?_, fun h => by rw [uniqRes, uniqRes, h]⟩
  have h' := congrArg List.toFinset h
  rwa [uniqRes, uniqRes, Finset.sort_toFinset, Finset.sort_toFinset] at h'

/-- The dependencies of a query are its tables if and only if every table is also found in a place
after a known keyword, with a name and an alias that the regular expressions accept. -/
theorem tableDependencies_iff (q : Query) (semicolon : Bool) :
    tableDependencies [statement q semicolon] =
        some (uniqRes (q.positions.map (·.table.name.text))) ↔
      ∀ p ∈ q.positions, ∃ p' ∈ q.positions, p'.seen = true ∧
        upper p'.table.name.text = upper p.table.name.text := by
  rw [tableDependencies_statement, Option.some_inj, uniqRes_eq_iff, Finset.ext_iff]
  simp only [seenNames, List.map_map, List.mem_toFinset, List.mem_map, List.mem_filter,
    Function.comp_apply]
  constructor
  · intro h p hp
    obtain ⟨p', ⟨hp', hseen⟩, heq⟩ := (h _).2 ⟨p, hp, rfl⟩
    exact ⟨p', hp', hseen, heq⟩
  · intro h name
    constructor
    · rintro ⟨p, ⟨hp, -⟩, rfl⟩
      exact ⟨p, hp, rfl⟩
    · rintro ⟨p, hp, rfl⟩
      obtain ⟨p', hp', hseen, heq⟩ := h p hp
      exact ⟨p', ⟨hp', hseen⟩, heq⟩

/-- A table without alias. -/
def tableOf (name : Text) (isName : IsName name) : Ref :=
  .table ⟨⟨[⟨false, name⟩], by simpa using isName⟩, none, fun _ h => nomatch h⟩

/-- One blank. -/
def oneBlank : Gap := [⟨false, [' '], by decide⟩]

/-- `SELECT * FROM t1 RIGHT JOIN t2` -/
def rightJoin : Query :=
  .mk [] "SELECT".toList rfl
    (.leaf .whitespace [' '] (fun h => nomatch h)
      (.leaf .other ['*'] (fun h => nomatch h) (.leaf .whitespace [' '] (fun h => nomatch h) .nil)))
    "FROM".toList rfl oneBlank (.one (tableOf "t1".toList ⟨⟨'t', rfl, rfl⟩, .inl (by decide)⟩))
    (.cons oneBlank "RIGHT JOIN".toList rfl oneBlank
      (.one (tableOf "t2".toList ⟨⟨'t', rfl, rfl⟩, .inl (by decide)⟩)) .none .nil)
    .none .none []

/-- The table after `RIGHT JOIN` is lost. -/
theorem tableDependencies_rightJoin :
    tableDependencies [statement rightJoin false] ≠
      some (uniqRes (rightJoin.positions.map (·.table.name.text))) := by
  rw [tableDependencies_statement, Ne, Option.some_inj, uniqRes_eq_iff]
  decide

end Survol.Sql

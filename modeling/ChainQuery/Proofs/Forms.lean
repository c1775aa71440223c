import ChainQuery.Proofs.Operands

/-! # Forms — what the kind of a term says about its node

    Every form of node makes terms of kinds of its own, so the kind at the
    top of a term tells the form of the node it was made from.  Among
    chains there is one exception: an index over a member and one over a
    computed key share a kind.  Between chains and expressions, four
    subqueries make what an expression can say directly; `Expr.plain` says
    it, and of plain expressions the kind tells the form
    (`form_of_expr`). -/

namespace ChainQuery

open Term Translation

variable {c : Converter} {env : Environment}

/-! ## Chains -/

/-- The kind of term a chain makes. -/
def Query.kind : Query → Kind
  | .root r => r.kind
  | .indexCreateWith _ _ _ => .indexCreate
  | .step _ s => s.kind
  | .rowStep _ s _ => s.kind
  | .orderBy _ _ _ => .orderBy
  | .union _ _ => .union
  | .reduce _ _ _ => .reduce
  | .groupBy _ _ _ => .groupBy
  | .groupedMapReduce _ _ _ _ _ => .groupedMapReduce
  | .join kind _ _ _ => kind.kind
  | .eqJoin _ _ _ _ => .eqJoin

/-- The kind of the term of a chain. -/
theorem kind_of_query {q : Query} {t : Term} (h : Gives (q.part c env) t) :
    t.kind = q.kind := by
  cases q with
  | root r => exact kind_of_root (gives_ofExcept h)
  | indexCreateWith table name key =>
      exact kind_of_assembled (assembled_indexCreateWith c table name key) h
  | step q s => exact kind_of_assembled (assembled_step c q s) h
  | rowStep q s f => exact kind_of_assembled (assembled_rowStep c q s f) h
  | orderBy q first others =>
      exact kind_of_assembled (assembled_orderBy c q first others) h
  | union a b => exact kind_of_assembled (assembled_union c a b) h
  | reduce q f base =>
      exact kind_of_assembled (assembled_reduce c q f base) h
  | groupBy q reduction key =>
      exact kind_of_assembled (assembled_groupBy c q reduction key) h
  | groupedMapReduce q f g r base =>
      exact kind_of_assembled
        (assembled_groupedMapReduce c q f g r base) h
  | join kind a b f =>
      exact kind_of_assembled (assembled_join c kind a b f) h
  | eqJoin a member b index =>
      exact kind_of_assembled (assembled_eqJoin c a member b index) h

/-- The form of a chain, as far as the kind of its term tells. -/
inductive Query.Form where
  /-- A root, or an index over a computed key. -/
  | start
  | step | rowStep | orderBy | union | reduce | groupBy
  | groupedMapReduce | join | eqJoin
  deriving DecidableEq

/-- The form of a chain. -/
def Query.form : Query → Query.Form
  | .root _ => .start
  | .indexCreateWith _ _ _ => .start
  | .step _ _ => .step
  | .rowStep _ _ _ => .rowStep
  | .orderBy _ _ _ => .orderBy
  | .union _ _ => .union
  | .reduce _ _ _ => .reduce
  | .groupBy _ _ _ => .groupBy
  | .groupedMapReduce _ _ _ _ _ => .groupedMapReduce
  | .join _ _ _ _ => .join
  | .eqJoin _ _ _ _ => .eqJoin

/-- The form of the chains that make terms of a kind. -/
def Term.Kind.queryForm : Kind → Query.Form
  | .get | .getAll | .between | .skip | .limit | .slice | .nth
  | .distinct | .count | .zip | .replace | .delete => .step
  | .filter | .map | .concatMap | .update => .rowStep
  | .orderBy => .orderBy
  | .union => .union
  | .reduce => .reduce
  | .groupBy => .groupBy
  | .groupedMapReduce => .groupedMapReduce
  | .innerJoin | .outerJoin => .join
  | .eqJoin => .eqJoin
  | _ => .start

theorem form_of_kind (q : Query) : q.kind.queryForm = q.form := by
  cases q with
  | root r => cases r <;> rfl
  | step q s => cases s <;> rfl
  | rowStep q s f => cases s <;> rfl
  | join kind a b f => cases kind <;> rfl
  | _ => rfl

/-- Chains that meet make terms of one kind. -/
theorem meets_query_kind {ren : Renaming} {q r : Query}
    (h : Meets ren (q.part c) (r.part c)) : q.kind = r.kind :=
  meets_kind h (fun _ _ => kind_of_query) (fun _ _ => kind_of_query)

/-- Chains that meet are of one form. -/
theorem meets_query_form {ren : Renaming} {q r : Query}
    (h : Meets ren (q.part c) (r.part c)) : q.form = r.form := by
  rw [← form_of_kind q, ← form_of_kind r, meets_query_kind h]

/-! ## Expressions -/

/-- Say a subquery directly where an expression can. -/
def Expr.plain : Expr → Expr
  | .subquery _ (.root (.literal v)) => .literal v
  | .subquery _ (.root (.literalSeq vs)) => .array (vs.map .literal)
  | .subquery _ (.root .now) => .call "now" []
  | .subquery i (.step q .count) => .call "count" [.subquery i q]
  | e => e

/-- What an expression stands for is alike to what it is. -/
theorem alike_plain_left {ren : Renaming} {e f : Expr}
    (h : Expr.Alike c ren e.plain f) : Expr.Alike c ren e f := by
  cases e with
  | subquery i q =>
      cases q with
      | root r =>
          cases r with
          | literal v => exact .left (.literal i v) h
          | literalSeq vs => exact .left (.literalSeq i vs) h
          | now => exact .left (.now i) h
          | _ => exact h
      | step q s =>
          cases s with
          | count => exact .left (.count i i q) h
          | _ => exact h
      | _ => exact h
  | _ => exact h

theorem alike_plain_right {ren : Renaming} {e f : Expr}
    (h : Expr.Alike c ren e f.plain) : Expr.Alike c ren e f := by
  cases f with
  | subquery i q =>
      cases q with
      | root r =>
          cases r with
          | literal v => exact .right (.literal i v) h
          | literalSeq vs => exact .right (.literalSeq i vs) h
          | now => exact .right (.now i) h
          | _ => exact h
      | step q s =>
          cases s with
          | count => exact .right (.count i i q) h
          | _ => exact h
      | _ => exact h
  | _ => exact h

/-- Literals in an array are translated like literals in sequence. -/
theorem translateItems_literals (c : Converter) (env : Environment)
    (vs : List Value) :
    translateItems c env (vs.map .literal)
      = ofExcept (c.judgeAll vs) := by
  induction vs with
  | nil => rfl
  | cons v vs ih =>
      rw [List.map_cons, translateItems, Converter.judgeAll, ofExcept_bind,
        ih, Expr.translate]
      refine congrArg _ (funext fun t => ?_)
      rw [ofExcept_bind]
      rfl

/-- Translations in sequence may be grouped in any way. -/
theorem translation_assoc {α β γ : Type} (x : Translation α)
    (f : α → Translation β) (g : β → Translation γ) :
    x >>= f >>= g = x >>= fun a => f a >>= g := by
  funext n
  show andThen (andThen x f) g n = andThen x (fun a => andThen (f a) g) n
  rw [andThen, andThen, andThen]
  rcases x n with ⟨r, m⟩
  cases r with
  | ok a => rfl
  | error e => rfl

/-- What an expression stands for has its term. -/
theorem part_plain (c : Converter) (e : Expr) :
    e.plain.part c = e.part c := by
  cases e with
  | subquery i q =>
      cases q with
      | root r =>
          cases r with
          | literalSeq vs =>
              -- One is judged as a whole, the other item by item.
              funext env
              show (translateItems c env (vs.map .literal) >>= _)
                = ofExcept (c.judgeAll vs >>= _)
              rw [translateItems_literals, ofExcept_bind]
              rfl
          | _ => rfl
      | step q s =>
          cases s with
          | count =>
              funext env
              show ((q.translate c env >>= fun t => pure [t]) >>=
                fun args => pure (Term.node .count args)) = _
              rw [translation_assoc]
              rfl
          | _ => rfl
      | _ => rfl
  | _ => rfl

/-- The form of the plain expressions that make terms of a kind. -/
def Term.Kind.exprForm : Kind → Expr.Form
  | .var => .parameter
  | .datum => .literal
  | .getField => .member
  | .eq | .ne | .lt | .le | .gt | .ge => .comparison
  | .add | .sub | .mul | .div | .mod => .arithmetic
  | .and | .or | .not => .boolean
  | .makeArray => .array
  | .makeObj => .object
  | .append | .coerceTo | .contains | .count | .default | .downcase
  | .hasFields | .keys | .matchText | .now | .typeOf | .upcase => .call
  | _ => .subquery

/-- Known functions make terms of kinds of their own. -/
theorem form_of_call {name : String} {given : Nat} {kind : Kind}
    (h : RemoteCall.judge name given = .ok kind) :
    kind.exprForm = .call := by
  have hall : ∀ r ∈ RemoteCall.all, r.kind.exprForm = .call := by decide
  obtain ⟨call, hmem, -, -, rfl⟩ := call_of_judge h
  exact hall call hmem

/-- The kind of the term of an expression tells its form, said plainly. -/
theorem form_of_expr {e : Expr} {t : Term} (h : Gives (e.part c env) t) :
    t.kind.exprForm = e.plain.form := by
  cases e with
  | param p =>
      obtain ⟨i, -, rfl⟩ := gives_param h
      rfl
  | literal v =>
      obtain ⟨d, -, rfl⟩ := judge_leaf (gives_ofExcept h)
      rfl
  | field e name => rw [kind_of_assembled (assembled_field c e name) h]; rfl
  | compare op a b =>
      rw [kind_of_assembled (assembled_compare c op a b) h]
      cases op <;> rfl
  | arith op a b =>
      rw [kind_of_assembled (assembled_arith c op a b) h]
      cases op <;> rfl
  | all es => rw [kind_of_assembled (assembled_all c es) h]; rfl
  | any es => rw [kind_of_assembled (assembled_any c es) h]; rfl
  | not e => rw [kind_of_assembled (assembled_not c e) h]; rfl
  | array es => rw [kind_of_assembled (assembled_array c es) h]; rfl
  | object ms =>
      obtain ⟨out, ts, rfl, -, -⟩ := gives_object c h
      rfl
  | call name es => exact form_of_call (call_judged c h)
  | subquery i q =>
      rw [kind_of_query (q := q) h]
      cases q with
      | root r => cases r <;> rfl
      | step q s => cases s <;> rfl
      | rowStep q s f => cases s <;> rfl
      | join kind a b f => cases kind <;> rfl
      | _ => rfl

/-- Expressions that meet are of one form, said plainly. -/
theorem meets_expr_form {ren : Renaming} {e f : Expr}
    (h : Meets ren (e.part c) (f.part c)) : e.plain.form = f.plain.form := by
  obtain ⟨env, env', around, t, u, -, ht, hu, hsame, -⟩ := h
  rw [← form_of_expr ht, ← form_of_expr hu, kind_of_same hsame]

end ChainQuery

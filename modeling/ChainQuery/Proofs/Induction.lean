import ChainQuery.Query.Order

/-! # Induction — statements about every expression and every chain

    Expressions and chains contain each other through functions, lists,
    members and sort keys.  What is proved about them is proved of both
    together, and always along the same lines: a statement passes from
    the parts of a node to the node.  `Hereditary` lists what has to be
    shown, once for each form of node; `Hereditary.expr` and
    `Hereditary.query` are the conclusion.

    A function is reached through its body, whatever the number of its
    parameters.  The members named by selectors are not parts in this
    sense: they are read and never entered.

    Values contain each other through items and entries
    (`Value.induction`). -/

namespace ChainQuery

/-! ## Values -/

/-- What passes from the items of a list and from the keys and items of a
    map to the whole, and is true of all other values, is true of every
    value. -/
@[elab_as_elim]
theorem Value.induction {P : Value → Prop} (null : P .null)
    (bool : ∀ b, P (.bool b)) (int : ∀ i, P (.int i))
    (uint : ∀ n, P (.uint n)) (float : ∀ x, P (.float x))
    (text : ∀ s, P (.text s)) (blob : ∀ bytes, P (.blob bytes))
    (list : ∀ items, (∀ v ∈ items, P v) → P (.list items))
    (map : ∀ entries, (∀ e ∈ entries, P e.1 ∧ P e.2) → P (.map entries))
    (v : Value) : P v :=
  @Value.rec P (fun items => ∀ v ∈ items, P v)
    (fun entries => ∀ e ∈ entries, P e.1 ∧ P e.2)
    (fun e => P e.1 ∧ P e.2) null bool int uint float text blob list map
    (List.forall_mem_nil _)
    (fun _ _ hv hvs => List.forall_mem_cons.mpr ⟨hv, hvs⟩)
    (List.forall_mem_nil _)
    (fun _ _ he hes => List.forall_mem_cons.mpr ⟨he, hes⟩)
    (fun _ _ hkey hitem => ⟨hkey, hitem⟩) v

/-! ## Expressions and chains -/

/-- The body of the selector of a sort key. -/
def SortKey.body (k : SortKey) : Expr :=
  k.toOrderKey.selector.body

/-- `P` and `R` pass from the parts of every expression and every chain to
    the whole. -/
structure Hereditary (P : Expr → Prop) (R : Query → Prop) : Prop where
  param : ∀ p, P (.param p)
  literal : ∀ v, P (.literal v)
  field : ∀ e name, P e → P (.field e name)
  compare : ∀ op a b, P a → P b → P (.compare op a b)
  arith : ∀ op a b, P a → P b → P (.arith op a b)
  all : ∀ es, (∀ e ∈ es, P e) → P (.all es)
  any : ∀ es, (∀ e ∈ es, P e) → P (.any es)
  not : ∀ e, P e → P (.not e)
  array : ∀ es, (∀ e ∈ es, P e) → P (.array es)
  object : ∀ ms, (∀ m ∈ ms, P m.2) → P (.object ms)
  call : ∀ name es, (∀ e ∈ es, P e) → P (.call name es)
  subquery : ∀ i q, R q → P (.subquery i q)
  root : ∀ r, R (.root r)
  indexCreateWith : ∀ t name (key : RowFunc),
    P key.toFunc.body → R (.indexCreateWith t name key)
  step : ∀ q s, R q → R (.step q s)
  rowStep : ∀ q s (f : RowFunc), R q → P f.toFunc.body →
    R (.rowStep q s f)
  orderBy : ∀ q first others, R q → P first.body →
    (∀ k ∈ others, P k.body) → R (.orderBy q first others)
  union : ∀ a b, R a → R b → R (.union a b)
  reduce : ∀ q (f : PairFunc) base, R q → P f.toFunc.body →
    R (.reduce q f base)
  groupBy : ∀ q reduction (key : RowFunc), R q → P key.toFunc.body →
    R (.groupBy q reduction key)
  groupedMapReduce : ∀ q (g m : RowFunc) (r : PairFunc) base,
    R q → P g.toFunc.body → P m.toFunc.body → P r.toFunc.body →
    R (.groupedMapReduce q g m r base)
  join : ∀ kind a b (f : PairFunc), R a → R b → P f.toFunc.body →
    R (.join kind a b f)
  eqJoin : ∀ a (member : RowFunc) b index, R a → R b →
    R (.eqJoin a member b index)

namespace Hereditary

variable {P : Expr → Prop} {R : Query → Prop}

mutual

/-- A hereditary statement holds of every expression. -/
theorem expr (h : Hereditary P R) : ∀ e, P e
  | .param p => h.param p
  | .literal v => h.literal v
  | .field e name => h.field e name (h.expr e)
  | .compare op a b => h.compare op a b (h.expr a) (h.expr b)
  | .arith op a b => h.arith op a b (h.expr a) (h.expr b)
  | .all es => h.all es (h.items es)
  | .any es => h.any es (h.items es)
  | .not e => h.not e (h.expr e)
  | .array es => h.array es (h.items es)
  | .object ms => h.object ms (h.members ms)
  | .call name es => h.call name es (h.items es)
  | .subquery i q => h.subquery i q (h.query q)
termination_by structural e => e

private theorem items (h : Hereditary P R) :
    ∀ es : List Expr, ∀ e ∈ es, P e
  | [] => List.forall_mem_nil _
  | e :: es => fun _ he =>
      match List.mem_cons.mp he with
      | .inl heq => heq ▸ h.expr e
      | .inr hmem => h.items es _ hmem
termination_by structural es => es

private theorem members (h : Hereditary P R) :
    ∀ ms : List (String × Expr), ∀ m ∈ ms, P m.2
  | [] => List.forall_mem_nil _
  | (_, e) :: ms => fun _ hm =>
      match List.mem_cons.mp hm with
      | .inl heq => heq ▸ h.expr e
      | .inr hmem => h.members ms _ hmem
termination_by structural ms => ms

private theorem rowFunc (h : Hereditary P R) :
    ∀ f : RowFunc, P f.toFunc.body
  | .mk _ body => h.expr body
termination_by structural f => f

private theorem pairFunc (h : Hereditary P R) :
    ∀ f : PairFunc, P f.toFunc.body
  | .mk _ _ body => h.expr body
termination_by structural f => f

private theorem sortKey (h : Hereditary P R) : ∀ k : SortKey, P k.body
  | .mk selector _ => h.rowFunc selector
termination_by structural k => k

private theorem sortKeys (h : Hereditary P R) :
    ∀ ks : List SortKey, ∀ k ∈ ks, P k.body
  | [] => List.forall_mem_nil _
  | k :: ks => fun _ hk =>
      match List.mem_cons.mp hk with
      | .inl heq => heq ▸ h.sortKey k
      | .inr hmem => h.sortKeys ks _ hmem
termination_by structural ks => ks

/-- A hereditary statement holds of every chain. -/
theorem query (h : Hereditary P R) : ∀ q, R q
  | .root r => h.root r
  | .indexCreateWith t name key =>
      h.indexCreateWith t name key (h.rowFunc key)
  | .step q s => h.step q s (h.query q)
  | .rowStep q s f => h.rowStep q s f (h.query q) (h.rowFunc f)
  | .orderBy q first others =>
      h.orderBy q first others (h.query q) (h.sortKey first)
        (h.sortKeys others)
  | .union a b => h.union a b (h.query a) (h.query b)
  | .reduce q f base => h.reduce q f base (h.query q) (h.pairFunc f)
  | .groupBy q reduction key =>
      h.groupBy q reduction key (h.query q) (h.rowFunc key)
  | .groupedMapReduce q g m r base =>
      h.groupedMapReduce q g m r base (h.query q) (h.rowFunc g)
        (h.rowFunc m) (h.pairFunc r)
  | .join kind a b f =>
      h.join kind a b f (h.query a) (h.query b) (h.pairFunc f)
  | .eqJoin a member b index =>
      h.eqJoin a member b index (h.query a) (h.query b)
termination_by structural q => q

end

end Hereditary

end ChainQuery

import ChainQuery.Query

/-! # Equality of expressions

    Expressions compare form by form: parameters by identity, literals as
    values, and embedded queries by the identity of the embedding, so two
    embeddings of the same query made at different times differ while
    copies of one embedding do not. -/

namespace ChainQuery

mutual

/-- Equality of expressions. -/
def Expr.same : Expr → Expr → Bool
  | .param p, .param q => p == q
  | .literal v, .literal w => v.same w
  | .field e n, .field f m => Expr.same e f && n == m
  | .compare o a b, .compare p c d =>
      o == p && Expr.same a c && Expr.same b d
  | .arith o a b, .arith p c d =>
      o == p && Expr.same a c && Expr.same b d
  | .all es, .all fs => sameExprs es fs
  | .any es, .any fs => sameExprs es fs
  | .not e, .not f => Expr.same e f
  | .array es, .array fs => sameExprs es fs
  | .object ms, .object ns => sameMembers ms ns
  | .call n es, .call m fs => n == m && sameExprs es fs
  | .subquery i _, .subquery j _ => i == j
  | _, _ => false
termination_by structural e => e

/-- Equality expression by expression. -/
def sameExprs : List Expr → List Expr → Bool
  | [], [] => true
  | e :: es, f :: fs => Expr.same e f && sameExprs es fs
  | _, _ => false
termination_by structural es => es

/-- Equality member by member, in the order written. -/
def sameMembers : List (String × Expr) → List (String × Expr) → Bool
  | [], [] => true
  | (n, e) :: ms, (m, f) :: ns =>
      n == m && Expr.same e f && sameMembers ms ns
  | _, _ => false
termination_by structural ms => ms

end

/-- Equality of functions: the same parameters and equal bodies. -/
def Func.same (f g : Func) : Bool :=
  f.params == g.params && f.body.same g.body

end ChainQuery

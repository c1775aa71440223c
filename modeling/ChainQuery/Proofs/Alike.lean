import ChainQuery.Convert
import ChainQuery.Query.Order
import Mathlib.Data.List.Forall2

/-! # Likeness — one chain written twice

    Two chains are alike when they have the same nodes in the same order
    with the same names, flags, indexes, bounds, bases, directions, keys
    and function bodies, except that

    * a parameter is known by the function that declares it and not by
      its identity (`Corresponds`);
    * the members of an object may stand in another order;
    * literals are known by the datums they convert to
      (`Converter.Alike`);
    * inside an expression, the subqueries that compute what an expression
      can say directly may be written as that expression
      (`Expr.Stands`).

    The identity of a subquery records when it was embedded and is not
    part of a chain. -/

namespace ChainQuery

/-! ## Operands -/

/-- Literals with numerically equal datums. -/
def Converter.Alike (c : Converter) (v w : Value) : Prop :=
  ∃ d e, c.convert v = .ok d ∧ c.convert w = .ok e ∧ d.same e = true

/-- Roots that differ in literals at most. -/
inductive Root.Alike (c : Converter) : Root → Root → Prop where
  | refl r : Root.Alike c r r
  | literal {v w} : c.Alike v w → Root.Alike c (.literal v) (.literal w)
  | literalSeq {vs ws} : List.Forall₂ c.Alike vs ws →
      Root.Alike c (.literalSeq vs) (.literalSeq ws)
  | insert {t v w upsert} : c.Alike v w →
      Root.Alike c (.insert t v upsert) (.insert t w upsert)

/-- Steps that differ in literals at most. -/
inductive Step.Alike (c : Converter) : Step → Step → Prop where
  | refl s : Step.Alike c s s
  | get {k l keyMember} : c.Alike (PrimaryKey.toValue k) l.toValue →
      Step.Alike c (.get k keyMember) (.get l keyMember)
  | getAll {v w index} : c.Alike v w →
      Step.Alike c (.getAll v index) (.getAll w index)
  | between {v w v' w' index left right} : c.Alike v v' → c.Alike w w' →
      Step.Alike c (.between v w index left right)
        (.between v' w' index left right)
  | skip {m n} : c.Alike (.int m) (.int n) →
      Step.Alike c (.skip m) (.skip n)
  | limit {m n} : c.Alike (.int m) (.int n) →
      Step.Alike c (.limit m) (.limit n)
  | sliceFrom {m n} : c.Alike (.int m) (.int n) →
      Step.Alike c (.slice m none) (.slice n none)
  | slice {m n m' n'} : c.Alike (.int m) (.int m') →
      c.Alike (.int n) (.int n') →
      Step.Alike c (.slice m (some n)) (.slice m' (some n'))
  | nth {m n} : c.Alike (.int m) (.int n) →
      Step.Alike c (.nth m) (.nth n)
  | replace {v w nonAtomic} : c.Alike v w →
      Step.Alike c (.replace v nonAtomic) (.replace w nonAtomic)
  | replaceAndReturn {v w nonAtomic} : c.Alike v w →
      Step.Alike c (.replaceAndReturn v nonAtomic)
        (.replaceAndReturn w nonAtomic)

/-- Selectors of the same member of their own rows. -/
def RowFunc.SameMember (f g : RowFunc) : Prop :=
  ∃ row row' name, f = .mk row (.field (.param row) name) ∧
    g = .mk row' (.field (.param row') name)

/-- Reductions that compute the same. -/
inductive Reduction.Alike : Reduction → Reduction → Prop where
  | count : Reduction.Alike .count .count
  | sum {f g} : f.SameMember g → Reduction.Alike (.sum f) (.sum g)
  | average {f g} : f.SameMember g →
      Reduction.Alike (.average f) (.average g)

/-! ## Parameters -/

/-- Parameters declared in corresponding places, innermost first. -/
abbrev Renaming := List (Param × Param)

/-- Parameters that resolve to corresponding declarations. -/
inductive Corresponds : Renaming → Param → Param → Prop where
  | here {p q ren} : Corresponds ((p, q) :: ren) p q
  | outer {p q p' q' ren} : p ≠ p' → q ≠ q' → Corresponds ren p q →
      Corresponds ((p', q') :: ren) p q

/-! ## Expressions and chains -/

/-- The subqueries that compute what an expression says directly: a
    literal, literals in sequence, the time, and the number of elements of
    a chain. -/
inductive Expr.Stands : Expr → Expr → Prop where
  | literal i v : Expr.Stands (.subquery i (.root (.literal v))) (.literal v)
  | literalSeq i vs :
      Expr.Stands (.subquery i (.root (.literalSeq vs)))
        (.array (vs.map .literal))
  | now i : Expr.Stands (.subquery i (.root .now)) (.call "now" [])
  | count i j q :
      Expr.Stands (.subquery i (.step q .count))
        (.call "count" [.subquery j q])

mutual

/-- Expressions that are alike where parameters are declared in
    corresponding places. -/
inductive Expr.Alike (c : Converter) : Renaming → Expr → Expr → Prop where
  | param {ren p q} : Corresponds ren p q →
      Expr.Alike c ren (.param p) (.param q)
  | literal {ren v w} : c.Alike v w →
      Expr.Alike c ren (.literal v) (.literal w)
  | field {ren e f name} : Expr.Alike c ren e f →
      Expr.Alike c ren (.field e name) (.field f name)
  | compare {ren op a b a' b'} : Expr.Alike c ren a a' →
      Expr.Alike c ren b b' →
      Expr.Alike c ren (.compare op a b) (.compare op a' b')
  | arith {ren op a b a' b'} : Expr.Alike c ren a a' →
      Expr.Alike c ren b b' →
      Expr.Alike c ren (.arith op a b) (.arith op a' b')
  | all {ren es fs} : ItemsAlike c ren es fs →
      Expr.Alike c ren (.all es) (.all fs)
  | any {ren es fs} : ItemsAlike c ren es fs →
      Expr.Alike c ren (.any es) (.any fs)
  | not {ren e f} : Expr.Alike c ren e f →
      Expr.Alike c ren (.not e) (.not f)
  | array {ren es fs} : ItemsAlike c ren es fs →
      Expr.Alike c ren (.array es) (.array fs)
  /-- Members may be put in another order first. -/
  | object {ren ms ms' ns} : ms'.Perm ns → MembersAlike c ren ms ms' →
      Expr.Alike c ren (.object ms) (.object ns)
  | call {ren name es fs} : ItemsAlike c ren es fs →
      Expr.Alike c ren (.call name es) (.call name fs)
  | subquery {ren i j q r} : Query.Alike c ren q r →
      Expr.Alike c ren (.subquery i q) (.subquery j r)
  | left {ren e e' f} : Expr.Stands e e' → Expr.Alike c ren e' f →
      Expr.Alike c ren e f
  | right {ren e f f'} : Expr.Stands f f' → Expr.Alike c ren e f' →
      Expr.Alike c ren e f

/-- Expressions that are alike one by one. -/
inductive ItemsAlike (c : Converter) :
    Renaming → List Expr → List Expr → Prop where
  | nil {ren} : ItemsAlike c ren [] []
  | cons {ren e f es fs} : Expr.Alike c ren e f →
      ItemsAlike c ren es fs → ItemsAlike c ren (e :: es) (f :: fs)

/-- Members of the same names that are alike one by one. -/
inductive MembersAlike (c : Converter) :
    Renaming → List (String × Expr) → List (String × Expr) → Prop where
  | nil {ren} : MembersAlike c ren [] []
  | cons {ren name e f ms ns} : Expr.Alike c ren e f →
      MembersAlike c ren ms ns →
      MembersAlike c ren ((name, e) :: ms) ((name, f) :: ns)

/-- Functions of so many parameters each, with bodies that are alike where
    these correspond too, the last ones innermost. -/
inductive Func.Alike (c : Converter) : Renaming → Func → Func → Prop where
  | mk {ren f g} : f.params.length = g.params.length →
      Expr.Alike c ((f.params.zip g.params).reverse ++ ren) f.body g.body →
      Func.Alike c ren f g

/-- Sort keys of the same directions that are alike one by one. -/
inductive KeysAlike (c : Converter) :
    Renaming → List SortKey → List SortKey → Prop where
  | nil {ren} : KeysAlike c ren [] []
  | cons {ren f g direction js ks} :
      Func.Alike c ren (RowFunc.toFunc f) (RowFunc.toFunc g) →
      KeysAlike c ren js ks →
      KeysAlike c ren (.mk f direction :: js) (.mk g direction :: ks)

/-- Chains that are alike where parameters are declared in corresponding
    places. -/
inductive Query.Alike (c : Converter) : Renaming → Query → Query → Prop where
  | root {ren r r'} : Root.Alike c r r' →
      Query.Alike c ren (.root r) (.root r')
  | indexCreateWith {ren t name f g} :
      Func.Alike c ren (RowFunc.toFunc f) (RowFunc.toFunc g) →
      Query.Alike c ren (.indexCreateWith t name f)
        (.indexCreateWith t name g)
  | step {ren q r s s'} : Query.Alike c ren q r → Step.Alike c s s' →
      Query.Alike c ren (.step q s) (.step r s')
  | rowStep {ren q r s f g} : Query.Alike c ren q r →
      Func.Alike c ren (RowFunc.toFunc f) (RowFunc.toFunc g) →
      Query.Alike c ren (.rowStep q s f) (.rowStep r s g)
  | orderBy {ren q r j js k ks} : Query.Alike c ren q r →
      KeysAlike c ren (j :: js) (k :: ks) →
      Query.Alike c ren (.orderBy q j js) (.orderBy r k ks)
  | union {ren q r q' r'} : Query.Alike c ren q r →
      Query.Alike c ren q' r' →
      Query.Alike c ren (.union q q') (.union r r')
  | reduce {ren q r f g base base'} : Query.Alike c ren q r →
      Func.Alike c ren (PairFunc.toFunc f) (PairFunc.toFunc g) →
      Option.Rel c.Alike base base' →
      Query.Alike c ren (.reduce q f base) (.reduce r g base')
  | groupBy {ren q r reduction reduction' f g} : Query.Alike c ren q r →
      Reduction.Alike reduction reduction' →
      Func.Alike c ren (RowFunc.toFunc f) (RowFunc.toFunc g) →
      Query.Alike c ren (.groupBy q reduction f) (.groupBy r reduction' g)
  | groupedMapReduce {ren q r f g f' g' f'' g'' base base'} :
      Query.Alike c ren q r →
      Func.Alike c ren (RowFunc.toFunc f) (RowFunc.toFunc g) →
      Func.Alike c ren (RowFunc.toFunc f') (RowFunc.toFunc g') →
      Func.Alike c ren (PairFunc.toFunc f'') (PairFunc.toFunc g'') →
      Option.Rel c.Alike base base' →
      Query.Alike c ren (.groupedMapReduce q f f' f'' base)
        (.groupedMapReduce r g g' g'' base')
  | join {ren kind q r q' r' f g} : Query.Alike c ren q r →
      Query.Alike c ren q' r' →
      Func.Alike c ren (PairFunc.toFunc f) (PairFunc.toFunc g) →
      Query.Alike c ren (.join kind q q' f) (.join kind r r' g)
  | eqJoin {ren q r q' r' f g index} : Query.Alike c ren q r →
      RowFunc.SameMember f g → Query.Alike c ren q' r' →
      Query.Alike c ren (.eqJoin q f q' index) (.eqJoin r g r' index)

end

end ChainQuery

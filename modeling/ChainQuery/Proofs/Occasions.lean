import ChainQuery.Proofs.Acceptance

/-! # Occasions — what a walk has to ask and to report

    Building the term of a chain, a walk comes to its literals, finishes
    its nodes and may come to something that has no term.  The occasions
    of a chain are these, in build order, whether or not they are reached;
    they are read off the chain alone.  Names, bounds, flags and variable
    numbers are no occasion for anything.  The route:

    * a literal is asked about as one stretch (`literal_eq`): its kinds
      until one is refused, then its conversion;
    * `Walk.Performs` says of one walk that its notes are those of its
      occasions up to the first obstacle, and that it ends with that
      obstacle; it passes through sequences (`performs_bind`) and functions
      (`performs_function`);
    * every form of node is made of these two (`performs_hereditary`). -/

namespace ChainQuery

open Walk

/-! ## The questions of a literal -/

namespace Converter

/-- The kinds that are asked about, up to the first that is refused. -/
def checked (c : Converter) : List Value.Kind → List Value.Kind
  | [] => []
  | kind :: rest => kind :: if c.supports kind then checked c rest else []

/-- All questions a literal that is accepted gives rise to. -/
def allQuestions (v : Value) : List Question :=
  v.kinds.map .supports ++ [.convert v.kind]

/-- The questions put about a literal: one for each kind in it until one
    is refused, and when none is, one conversion. -/
def questions (c : Converter) (v : Value) : List Question :=
  (c.checked v.kinds).map .supports ++
    if ∀ kind ∈ v.kinds, c.supports kind = true then [.convert v.kind]
    else []

variable {c : Converter} {ks ls : List Value.Kind}

theorem checked_of_supported
    (h : ∀ kind ∈ ks, c.supports kind = true) : c.checked ks = ks := by
  induction ks with
  | nil => rfl
  | cons k ks ih =>
      obtain ⟨hk, hks⟩ := List.forall_mem_cons.mp h
      rw [checked, if_pos hk, ih hks]

theorem checked_append_of_supported
    (h : ∀ kind ∈ ks, c.supports kind = true) :
    c.checked (ks ++ ls) = c.checked ks ++ c.checked ls := by
  induction ks with
  | nil => rfl
  | cons k ks ih =>
      obtain ⟨hk, hks⟩ := List.forall_mem_cons.mp h
      rw [List.cons_append, checked, if_pos hk, ih hks, checked, if_pos hk]
      rfl

theorem checked_append_of_refused
    (h : ¬ ∀ kind ∈ ks, c.supports kind = true) :
    c.checked (ks ++ ls) = c.checked ks := by
  induction ks with
  | nil => exact absurd (List.forall_mem_nil _) h
  | cons k ks ih =>
      rw [List.cons_append, checked, checked]
      by_cases hk : c.supports k = true
      · have hks : ¬ ∀ kind ∈ ks, c.supports kind = true :=
          fun hks => h (List.forall_mem_cons.mpr ⟨hk, hks⟩)
        rw [if_pos hk, if_pos hk, ih hks]
      · rw [if_neg hk, if_neg hk]

/-- A literal without refused kinds is asked about in full. -/
theorem questions_of_supported {v : Value}
    (h : ∀ kind ∈ v.kinds, c.supports kind = true) :
    c.questions v = allQuestions v := by
  rw [questions, checked_of_supported h, if_pos h]
  rfl

end Converter

/-- A walk that asks about kinds in order, until one is refused, and has
    nothing else to show for it. -/
def Walk.Checks (c : Converter) (ks : List Value.Kind) (x : Walk Unit) :
    Prop :=
  ∀ ctx, x ctx
    = ⟨c.allow ks, ctx, (c.checked ks).map fun k => .asked (.supports k)⟩

variable {c : Converter}

theorem allow_ok {ks : List Value.Kind} :
    c.allow ks = .ok () ↔ ∀ kind ∈ ks, c.supports kind = true := by
  induction ks with
  | nil => exact ⟨fun _ => List.forall_mem_nil _, fun _ => rfl⟩
  | cons k ks ih =>
      rw [Converter.allow, List.forall_mem_cons, ← ih]
      by_cases hk : c.supports k = true
      · simp [hk]
      · simp [hk]

theorem checks_nil : Checks c [] (pure ()) :=
  fun _ => rfl

/-- Kinds in sequence are checked in sequence. -/
theorem checks_bind {ks ls : List Value.Kind} {x y : Walk Unit}
    (hx : Checks c ks x) (hy : Checks c ls y) :
    Checks c (ks ++ ls) (x >>= fun _ => y) := by
  intro ctx
  show andThen x _ ctx = _
  rw [andThen, hx ctx, allow_append]
  by_cases hks : ∀ kind ∈ ks, c.supports kind = true
  · rw [allow_ok.mpr hks, Converter.checked_append_of_supported hks,
      List.map_append]
    simp only [hy ctx]
    rfl
  · rw [Converter.checked_append_of_refused hks]
    cases hallow : c.allow ks with
    | ok u => exact absurd (allow_ok.mp hallow) hks
    | error e => rfl

theorem checks_requireKind (c : Converter) (kind : Value.Kind) :
    Checks c [kind] (c.requireKind kind) := by
  intro ctx
  rw [Converter.requireKind, Converter.allow, Converter.checked]
  by_cases hk : c.supports kind = true
  · rw [if_pos hk, if_pos hk, if_pos hk]
    rfl
  · rw [if_neg hk, if_neg hk, if_neg hk]
    rfl

/-- The support check of a stack is that of the kinds on it: a turn of the
    loop asks about the first, and the others follow. -/
theorem checks_requirePending (c : Converter) (pending : List Value) :
    Checks c (Value.kindsOfItems pending) (c.requirePending pending) := by
  induction pending using Converter.requirePending.induct with
  | case1 =>
      rw [Converter.requirePending]
      exact checks_nil
  | case2 v pending ih =>
      rw [Converter.requirePending, Value.kindsOfItems_push]
      exact checks_bind (checks_requireKind c v.kind) ih

/-- A literal is judged and asked about, and that is all. -/
theorem literal_eq (c : Converter) (v : Value) (ctx : Context) :
    c.literal v ctx = ⟨c.judge v, ctx, (c.questions v).map .asked⟩ := by
  show andThen (c.requirePending [v]) _ ctx = _
  rw [andThen, checks_requirePending c [v] ctx, Value.kindsOfItems_one,
    Converter.judge, Converter.questions]
  by_cases hall : ∀ kind ∈ v.kinds, c.supports kind = true
  · rw [allow_ok.mpr hall, if_pos hall]
    show (⟨(andThen (write _) _ ctx).result,
      (andThen (write _) _ ctx).context, _⟩ : Outcome Term) = _
    rw [List.map_append, List.map_map]
    cases hd : c.convert v with
    | ok d => rfl
    | error e => rfl
  · rw [if_neg hall, List.append_nil, List.map_map]
    cases hallow : c.allow v.kinds with
    | ok u => exact absurd (allow_ok.mp hallow) hall
    | error e => rfl

/-! ## Occasions -/

/-- Something a walk comes to. -/
inductive Occasion where
  /-- A literal is to be converted. -/
  | literal (v : Value)
  /-- A query node is finished. -/
  | built (kind : Term.Kind) (args : Nat)
  /-- Something has no term. -/
  | stop (e : TermError)

/-- The event that reports what has no term. -/
def TermError.event : TermError → Event
  | .unsupported (.notMember use found) =>
      .selectorFailed (.unsupported (.notMember use found))
  | e => .expressionFailed e

namespace Occasion

/-- What stands in the way of going on. -/
def violations (c : Converter) : Occasion → List TermError
  | .literal v => c.violations v
  | .built _ _ => []
  | .stop e => [e]

/-- The questions asked on an occasion: about literals and about nothing
    else. -/
def questions (c : Converter) : Occasion → List Question
  | .literal v => c.questions v
  | .built _ _ => []
  | .stop _ => []

/-- The notes left on an occasion. -/
def notes (c : Converter) : Occasion → List Note
  | .literal v => (c.questions v).map .asked
  | .built kind args => [.reported (.built kind args)]
  | .stop e => [.reported e.event]

/-- The literal of an occasion. -/
def operand? : Occasion → Option Value
  | .literal v => some v
  | .built _ _ => none
  | .stop _ => none

end Occasion

/-- What stands in the way on occasions, in order. -/
def obstacles (c : Converter) (os : List Occasion) : List TermError :=
  os.flatMap (Occasion.violations c)

/-- The literals among occasions. -/
def operands (os : List Occasion) : List Value :=
  os.filterMap Occasion.operand?

/-- The occasions up to the first with an obstacle. -/
def reached (c : Converter) : List Occasion → List Occasion
  | [] => []
  | o :: rest =>
      o :: match o.violations c with
        | [] => reached c rest
        | _ :: _ => []

/-- The notes of a walk that comes to occasions in order. -/
def record (c : Converter) (os : List Occasion) : List Note :=
  (reached c os).flatMap (Occasion.notes c)

/-- Literals as occasions. -/
def literalOccasions (vs : List Value) : List Occasion :=
  vs.map .literal

/-- The occasions of a table reference. -/
def Table.occasions (t : Table) : List Occasion :=
  match t.db with
  | none => [.built .table 1]
  | some _ => [.built .db 1, .built .table 2]

/-- The occasions of a root.  A single literal is a leaf and no node. -/
def Root.occasions : Root → List Occasion
  | .db _ => [.built .db 1]
  | .table t => t.occasions
  | .dbCreate _ => [.built .dbCreate 1]
  | .dbDrop _ => [.built .dbDrop 1]
  | .dbList => [.built .dbList 0]
  | .tableCreate _ _ => [.built .db 1, .built .tableCreate 2]
  | .tableDrop _ _ => [.built .db 1, .built .tableDrop 2]
  | .tableList _ => [.built .db 1, .built .tableList 1]
  | .indexCreate t _ => t.occasions ++ [.built .indexCreate 2]
  | .indexDrop t _ => t.occasions ++ [.built .indexDrop 2]
  | .indexList t => t.occasions ++ [.built .indexList 1]
  | .literal v => [.literal v]
  | .literalSeq vs => literalOccasions vs ++ [.built .makeArray vs.length]
  | .now => [.built .now 0]
  | .insert t v _ => t.occasions ++ ([.literal v] ++ [.built .insert 2])

mutual

/-- The occasions of an expression below functions that declare the given
    parameters. -/
def Expr.occasions (declared : List Param) : Expr → List Occasion
  | .param p =>
      if p ∈ declared then [] else [.stop (.unsupported (.freeParam p))]
  | .literal v => [.literal v]
  | .field target _ => Expr.occasions declared target
  | .compare _ left right =>
      Expr.occasions declared left ++ Expr.occasions declared right
  | .arith _ left right =>
      Expr.occasions declared left ++ Expr.occasions declared right
  | .all items => itemOccasions declared items
  | .any items => itemOccasions declared items
  | .not e => Expr.occasions declared e
  | .array items => itemOccasions declared items
  | .object members => memberOccasions declared [] members
  | .call name args =>
      (RemoteCall.violations name args.length).map .stop ++
        itemOccasions declared args
  | .subquery _ q => Query.occasions declared q
termination_by structural e => e

/-- The occasions of expressions, in order. -/
def itemOccasions (declared : List Param) : List Expr → List Occasion
  | [] => []
  | e :: es => Expr.occasions declared e ++ itemOccasions declared es
termination_by structural es => es

/-- The occasions of object members.  That a name occurred `earlier`
    comes after the occasions of the member itself. -/
def memberOccasions (declared : List Param) (earlier : List String) :
    List (String × Expr) → List Occasion
  | [] => []
  | (name, e) :: rest =>
      Expr.occasions declared e ++
        ((if name ∈ earlier then
            [.stop (.unsupported (.duplicateMember name))]
          else []) ++
        memberOccasions declared (name :: earlier) rest)
termination_by structural members => members

/-- The occasions of a function of one row: those of its body. -/
def RowFunc.occasions (declared : List Param) : RowFunc → List Occasion
  | .mk row body => Expr.occasions (row :: declared) body
termination_by structural f => f

/-- The occasions of a function of two rows. -/
def PairFunc.occasions (declared : List Param) : PairFunc → List Occasion
  | .mk left right body => Expr.occasions (left :: right :: declared) body
termination_by structural f => f

/-- The occasions of a sort key: none when it goes by a name. -/
def SortKey.occasions (declared : List Param) : SortKey → List Occasion
  | .mk selector _ =>
      match selector.toFunc.memberName? with
      | some _ => []
      | none => RowFunc.occasions declared selector
termination_by structural k => k

/-- The occasions of sort keys, in order. -/
def keyOccasions (declared : List Param) : List SortKey → List Occasion
  | [] => []
  | k :: ks => SortKey.occasions declared k ++ keyOccasions declared ks
termination_by structural ks => ks

/-- The occasions of a chain: sources before operands, operands from left
    to right, the node last.  A selector that has to be a member is an
    occasion only where it is none. -/
def Query.occasions (declared : List Param) : Query → List Occasion
  | .root r => r.occasions
  | .indexCreateWith t _ key =>
      t.occasions ++
        (RowFunc.occasions declared key ++ [.built .indexCreate 3])
  | .step source s =>
      Query.occasions declared source ++
        (literalOccasions s.carried ++
          [.built s.kind (s.carried.length + 1)])
  | .rowStep source s f =>
      Query.occasions declared source ++
        (RowFunc.occasions declared f ++ [.built s.kind 2])
  | .orderBy source first others =>
      Query.occasions declared source ++
        (SortKey.occasions declared first ++
          (keyOccasions declared others ++
            [.built .orderBy (others.length + 2)]))
  | .union first second =>
      Query.occasions declared first ++
        (Query.occasions declared second ++ [.built .union 2])
  | .reduce source f base =>
      Query.occasions declared source ++
        (PairFunc.occasions declared f ++
          (literalOccasions base.toList ++ [.built .reduce 2]))
  | .groupBy source reduction key =>
      Query.occasions declared source ++
        (RowFunc.occasions declared key ++
          (reduction.violations.map .stop ++ [.built .groupBy 3]))
  | .groupedMapReduce source grouping mapping reduction base =>
      Query.occasions declared source ++
        (RowFunc.occasions declared grouping ++
          (RowFunc.occasions declared mapping ++
            (PairFunc.occasions declared reduction ++
              (literalOccasions base.toList ++
                [.built .groupedMapReduce 4]))))
  | .join kind left right predicate =>
      Query.occasions declared left ++
        (Query.occasions declared right ++
          (PairFunc.occasions declared predicate ++ [.built kind.kind 3]))
  | .eqJoin left member right _ =>
      Query.occasions declared left ++
        ((member.memberViolations .eqJoin).map .stop ++
          (Query.occasions declared right ++ [.built .eqJoin 3]))
termination_by structural q => q

end

/-- The occasions of a function of any number of parameters. -/
def Func.occasions (declared : List Param) (f : Func) : List Occasion :=
  f.body.occasions (f.params ++ declared)

/-- The literal operands of a chain, in build order, once for each
    occurrence. -/
def Query.operands (q : Query) : List Value :=
  ChainQuery.operands (q.occasions [])

/-! ## Walks that perform occasions -/

variable {α β : Type} {scope : List (Param × Nat)}
  {xs ys os : List Occasion}

theorem obstacles_append :
    obstacles c (xs ++ ys) = obstacles c xs ++ obstacles c ys :=
  List.flatMap_append

/-- What comes after no obstacle is reached. -/
theorem record_append_of_none (h : obstacles c xs = []) :
    record c (xs ++ ys) = record c xs ++ record c ys := by
  induction xs with
  | nil => rfl
  | cons x xs ih =>
      obtain ⟨hx, hxs⟩ := List.append_eq_nil_iff.mp h
      rw [List.cons_append, record, record, reached, hx, reached, hx]
      show x.notes c ++ record c (xs ++ ys)
        = (x.notes c ++ record c xs) ++ record c ys
      rw [ih hxs, List.append_assoc]

/-- What comes after an obstacle is not. -/
theorem record_append_of_some (h : obstacles c xs ≠ []) :
    record c (xs ++ ys) = record c xs := by
  induction xs with
  | nil => exact absurd rfl h
  | cons x xs ih =>
      rw [List.cons_append, record, record, reached, reached]
      cases hx : x.violations c with
      | nil =>
          have hxs : obstacles c xs ≠ [] := by
            intro hnone
            exact h (List.append_eq_nil_iff.mpr ⟨hx, hnone⟩)
          exact congrArg (x.notes c ++ ·) (ih hxs)
      | cons e es => rfl

/-- How a walk in `scope` ends that comes to the given occasions. -/
structure Outcome.Performed (c : Converter) (scope : List (Param × Nat))
    (os : List Occasion) (o : Outcome α) : Prop where
  scope : o.context.scope = scope
  notes : o.notes = record c os
  verdict : Verdict (obstacles c os) o.result

/-- Walked in `scope`, wherever its numbers start, `x` comes to the given
    occasions. -/
def Walk.Performs (c : Converter) (scope : List (Param × Nat))
    (os : List Occasion) (x : Walk α) : Prop :=
  ∀ n, (x ⟨n, scope⟩).Performed c scope os

theorem performs_pure (a : α) :
    Performs c scope [] (pure a : Walk α) :=
  fun _ => ⟨rfl, rfl, a, rfl⟩

theorem performs_node (kind : Term.Kind) {args : List Term} {count : Nat}
    (h : args.length = count) :
    Performs c scope [.built kind count] (node kind args) := by
  subst h
  exact fun _ => ⟨rfl, rfl, _, rfl⟩

theorem performs_stop {e : TermError} (rest : List Occasion) {x : Walk α}
    (h : ∀ ctx, x ctx = ⟨.error e, ctx, [.reported e.event]⟩) :
    Performs c scope (.stop e :: rest) x := by
  intro n
  rw [h]
  exact ⟨rfl, rfl, rfl⟩

theorem performs_literal (c : Converter) (v : Value) :
    Performs c scope [.literal v] (c.literal v) := by
  intro n
  rw [literal_eq]
  refine ⟨rfl, ?_, ?_⟩
  · show _ = record c [.literal v]
    rw [record, reached]
    cases hv : (Occasion.literal v).violations c <;> exact
      (List.append_nil _).symm
  · show Verdict (c.violations v ++ []) _
    rw [List.append_nil]
    exact verdict_judge c v

/-- Sequences perform in sequence; the second part may count on a result
    of the first. -/
theorem performs_bind_ok {x : Walk α} {f : α → Walk β}
    (hx : Performs c scope xs x)
    (hf : ∀ n a, (x ⟨n, scope⟩).result = .ok a →
      Performs c scope ys (f a)) :
    Performs c scope (xs ++ ys) (x >>= f) := by
  intro n
  show (andThen x f ⟨n, scope⟩).Performed c scope (xs ++ ys)
  obtain ⟨hscope, hnotes, hverdict⟩ := hx n
  have hok := hf n
  rw [andThen]
  rcases hxn : x ⟨n, scope⟩ with ⟨r, ⟨middle, inner⟩, notes⟩
  rw [hxn] at hscope hnotes hverdict hok
  replace hscope : inner = scope := hscope
  replace hnotes : notes = record c xs := hnotes
  replace hverdict : Verdict (obstacles c xs) r := hverdict
  subst hscope hnotes
  cases hnone : obstacles c xs with
  | nil =>
      rw [hnone] at hverdict
      obtain ⟨a, rfl⟩ := hverdict
      obtain ⟨hscope', hnotes', hverdict'⟩ := hok a rfl middle
      refine ⟨hscope', ?_, ?_⟩
      · show record c xs ++ (f a ⟨middle, inner⟩).notes = _
        rw [record_append_of_none hnone, hnotes']
      · rw [obstacles_append, hnone]
        exact hverdict'
  | cons e es =>
      rw [hnone] at hverdict
      replace hverdict : r = .error e := hverdict
      subst hverdict
      have hsome : obstacles c xs ≠ [] := by
        rw [hnone]
        exact List.cons_ne_nil e es
      refine ⟨rfl, ?_, ?_⟩
      · exact (record_append_of_some hsome).symm
      · rw [obstacles_append, hnone]
        rfl

theorem performs_bind {x : Walk α} {f : α → Walk β}
    (hx : Performs c scope xs x) (hf : ∀ a, Performs c scope ys (f a)) :
    Performs c scope (xs ++ ys) (x >>= f) :=
  performs_bind_ok hx fun _ a _ => hf a

/-- A last part that is no occasion for anything adds none. -/
theorem performs_map {x : Walk α} {f : α → Walk β}
    (hx : Performs c scope os x) (hf : ∀ a, Performs c scope [] (f a)) :
    Performs c scope os (x >>= f) := by
  have h := performs_bind hx hf
  rwa [List.append_nil] at h

/-- A function comes to what its body comes to. -/
theorem performs_function {params : List Param} {body : Walk Term}
    (h : ∀ n, Performs c (Context.enter ⟨n, scope⟩ params).scope os body) :
    Performs c scope os (functionWalk params body) := by
  refine performs_map ?_ fun _ => performs_pure _
  intro n
  have hctx : Context.enter ⟨n, scope⟩ params
      = ⟨n + params.length, (Context.enter ⟨n, scope⟩ params).scope⟩ := by
    rw [enter_eq]
  obtain ⟨hscope, hnotes, hverdict⟩ := h n (n + params.length)
  rw [← hctx] at hscope hnotes hverdict
  refine ⟨?_, hnotes, ?_⟩
  · show (body _).context.scope.drop params.length = scope
    rw [hscope, drop_enter]
  · show Verdict _ ((body _).result.map _)
    cases hnone : obstacles c os with
    | nil =>
        rw [hnone] at hverdict
        obtain ⟨t, ht⟩ := hverdict
        rw [ht]
        exact ⟨_, rfl⟩
    | cons e es =>
        rw [hnone] at hverdict
        replace hverdict : (body _).result = .error e := hverdict
        rw [hverdict]
        rfl

/-! ## Literals, calls, selectors and roots -/

theorem performs_literals (c : Converter) (vs : List Value) :
    Performs c scope (literalOccasions vs) (c.literals vs) := by
  induction vs with
  | nil => exact performs_pure []
  | cons v vs ih =>
      exact performs_bind (performs_literal c v) fun _ =>
        performs_map ih fun _ => performs_pure _

/-- A step comes to the literals it carries. -/
theorem performs_carried (c : Converter) (s : Step) :
    Performs c scope (literalOccasions s.carried)
      (c.literals s.literals) := by
  rw [literals_eq_carried]
  exact performs_literals c s.carried

theorem performs_optionalLiteral (c : Converter) (base : Option Value) :
    Performs c scope (literalOccasions base.toList)
      (c.optionalLiteral base) := by
  cases base with
  | none => exact performs_pure none
  | some v =>
      exact performs_map (performs_literal c v) fun _ => performs_pure _

theorem performs_check (name : String) (given : Nat) :
    Performs c scope ((RemoteCall.violations name given).map .stop)
      (RemoteCall.check name given) := by
  rw [RemoteCall.violations, RemoteCall.check]
  cases RemoteCall.find? name with
  | none => exact performs_stop [] fun _ => rfl
  | some call =>
      by_cases ha : call.arity = given
      · simp only [if_pos ha]
        exact performs_pure call.kind
      · simp only [if_neg ha]
        exact performs_stop [] fun _ => rfl

theorem performs_member (use : SelectorUse) (f : RowFunc) :
    Performs c scope ((f.memberViolations use).map .stop)
      (f.member use) := by
  rw [RowFunc.memberViolations, RowFunc.member]
  cases f.toFunc.memberName? with
  | some name => exact performs_pure _
  | none => exact performs_stop [] fun _ => rfl

theorem performs_reduction (r : Reduction) :
    Performs c scope (r.violations.map .stop) r.walk := by
  cases r with
  | count => exact performs_pure _
  | sum f =>
      exact performs_map (performs_member .sum f) fun _ => performs_pure _
  | average f =>
      exact performs_map (performs_member .average f) fun _ =>
        performs_pure _

theorem performs_table (t : Table) :
    Performs c scope t.occasions t.walk := by
  obtain ⟨db, name, useOutdated⟩ := t
  cases db with
  | none => exact fun _ => ⟨rfl, rfl, _, rfl⟩
  | some db => exact fun _ => ⟨rfl, rfl, _, rfl⟩

/-- There are as many leaves as literals. -/
theorem literals_length {vs : List Value} {n : Nat} {ts : List Term}
    (h : (c.literals vs ⟨n, scope⟩).result = .ok ts) :
    ts.length = vs.length := by
  rw [(follows_literals c vs n).1] at h
  exact (judgeAll_ok h).length_eq.symm

theorem carried_length {s : Step} {n : Nat} {ts : List Term}
    (h : (c.literals s.literals ⟨n, scope⟩).result = .ok ts) :
    ts.length = s.carried.length := by
  rw [literals_eq_carried] at h
  exact literals_length h

theorem performs_root (c : Converter) (r : Root) :
    Performs c scope r.occasions (r.walk c) := by
  cases r with
  | db name | dbCreate name | dbDrop name | dbList | now =>
      exact performs_node _ rfl
  | table t => exact performs_table t
  | tableCreate db name | tableDrop db name | tableList db =>
      show Performs c scope ([.built .db 1] ++ _) _
      exact performs_bind (performs_node .db rfl) fun _ =>
        performs_node _ rfl
  | indexCreate t name | indexDrop t name | indexList t =>
      exact performs_bind (performs_table t) fun _ => performs_node _ rfl
  | literal v => exact performs_literal c v
  | literalSeq vs =>
      exact performs_bind_ok (performs_literals c vs) fun _ _ hts =>
        performs_node _ (literals_length hts)
  | insert t v upsert =>
      exact performs_bind (performs_table t) fun _ =>
        performs_bind (performs_literal c v) fun _ =>
          performs_map (performs_node _ rfl) fun _ => performs_pure _

/-! ## Expressions and chains -/

/-- Below functions that declare the given parameters, an expression is
    walked through its occasions. -/
def Expr.Performs (c : Converter) (e : Expr) : Prop :=
  ∀ scope declared, Environment.Knows (.ofScope scope) declared →
    Walk.Performs c scope (e.occasions declared) (e.walk c)

/-- Below functions that declare the given parameters, a chain is walked
    through its occasions. -/
def Query.Performs (c : Converter) (q : Query) : Prop :=
  ∀ scope declared, Environment.Knows (.ofScope scope) declared →
    Walk.Performs c scope (q.occasions declared) (q.walk c)

variable {declared : List Param}

theorem performs_param (hscope : Environment.Knows (.ofScope scope) declared)
    (p : Param) :
    Walk.Performs c scope (Expr.occasions declared (.param p))
      (Expr.walk c (.param p)) := by
  rw [Expr.occasions, Expr.walk]
  refine performs_map ?_ fun _ => performs_pure _
  intro n
  have hknows := hscope p
  rw [Environment.ofScope] at hknows
  rw [variableOf, Context.resolve?]
  cases hp : scope.lookup p with
  | some id =>
      rw [hp] at hknows
      rw [if_pos (hknows.mp rfl)]
      exact ⟨rfl, rfl, _, rfl⟩
  | none =>
      rw [hp] at hknows
      rw [if_neg (fun hmem => by cases hknows.mpr hmem)]
      exact ⟨rfl, rfl, rfl⟩

theorem performs_func {f : Func} (h : f.body.Performs c)
    (hscope : Environment.Knows (.ofScope scope) declared) :
    Walk.Performs c scope (f.occasions declared) (f.walk c) := by
  refine performs_function fun n => h _ _ ?_
  rw [resolve_enter]
  exact knows_declare hscope f.params n

theorem performs_rowFunc {f : RowFunc} (h : f.toFunc.body.Performs c)
    (hscope : Environment.Knows (.ofScope scope) declared) :
    Walk.Performs c scope (f.occasions declared) (f.walk c) := by
  rw [rowFunc_walk]
  obtain ⟨row, body⟩ := f
  exact performs_func h hscope

theorem performs_pairFunc {f : PairFunc} (h : f.toFunc.body.Performs c)
    (hscope : Environment.Knows (.ofScope scope) declared) :
    Walk.Performs c scope (f.occasions declared) (f.walk c) := by
  rw [pairFunc_walk]
  obtain ⟨left, right, body⟩ := f
  exact performs_func h hscope

theorem performs_items {es : List Expr} (h : ∀ e ∈ es, e.Performs c)
    (hscope : Environment.Knows (.ofScope scope) declared) :
    Walk.Performs c scope (itemOccasions declared es) (walkItems c es) := by
  induction es with
  | nil => exact performs_pure []
  | cons e es ih =>
      obtain ⟨he, hes⟩ := List.forall_mem_cons.mp h
      rw [itemOccasions, walkItems]
      exact performs_bind (he scope declared hscope) fun _ =>
        performs_map (ih hes) fun _ => performs_pure _

/-- A member is checked against those put before it. -/
theorem performs_members {ms : List (String × Expr)}
    (h : ∀ m ∈ ms, m.2.Performs c)
    (hscope : Environment.Knows (.ofScope scope) declared)
    {earlier : List String} {done : List (String × Term)}
    (hdone : ∀ name, name ∈ done.map Prod.fst ↔ name ∈ earlier) :
    Walk.Performs c scope (memberOccasions declared earlier ms)
      (walkMembers c ms done) := by
  induction ms generalizing earlier done with
  | nil => exact performs_pure done
  | cons m ms ih =>
      obtain ⟨name, e⟩ := m
      obtain ⟨he, hms⟩ := List.forall_mem_cons.mp h
      rw [memberOccasions, walkMembers]
      refine performs_bind (he scope declared hscope) fun t => ?_
      by_cases hname : name ∈ earlier
      · rw [if_pos hname,
          if_pos (Entries.has_iff.mpr ((hdone name).mpr hname))]
        exact performs_stop _ fun _ => rfl
      · have hnew : name ∉ done.map Prod.fst := mt (hdone name).mp hname
        rw [if_neg hname, if_neg (mt Entries.has_iff.mp hnew)]
        refine ih hms fun other => ?_
        have hput := (Entries.put_perm t hnew).map Prod.fst
        rw [hput.mem_iff, List.map_cons, List.mem_cons, List.mem_cons,
          hdone other]

theorem performs_key {k : SortKey} (h : k.body.Performs c)
    (hscope : Environment.Knows (.ofScope scope) declared) :
    Walk.Performs c scope (k.occasions declared) (k.walk c) := by
  obtain ⟨selector, direction⟩ := k
  rw [SortKey.occasions, SortKey.walk]
  refine performs_map ?_ fun _ => performs_pure _
  cases selector.toFunc.memberName? with
  | some name => exact performs_pure _
  | none => exact performs_rowFunc h hscope

theorem performs_keys {ks : List SortKey}
    (h : ∀ k ∈ ks, k.body.Performs c)
    (hscope : Environment.Knows (.ofScope scope) declared) :
    Walk.Performs c scope (keyOccasions declared ks) (walkKeys c ks) := by
  induction ks with
  | nil => exact performs_pure []
  | cons k ks ih =>
      obtain ⟨hk, hks⟩ := List.forall_mem_cons.mp h
      rw [keyOccasions, walkKeys]
      exact performs_bind (performs_key hk hscope) fun _ =>
        performs_map (ih hks) fun _ => performs_pure _

/-- There are as many terms as sort keys. -/
theorem keys_length {ks : List SortKey} {ctx : Context} {ts : List Term}
    (h : (walkKeys c ks ctx).result = .ok ts) : ts.length = ks.length := by
  induction ks generalizing ctx ts with
  | nil =>
      cases h
      rfl
  | cons k ks ih =>
      obtain ⟨t, -, hrest⟩ := bind_result_iff.mp h
      obtain ⟨us, hus, hlast⟩ := bind_result_iff.mp hrest
      cases hlast
      exact congrArg (· + 1) (ih hus)

/-- Every form of node is walked through its occasions. -/
theorem performs_hereditary (c : Converter) :
    Hereditary (Expr.Performs c) (Query.Performs c) where
  param p _ _ hscope := performs_param hscope p
  literal v _ _ _ := performs_literal c v
  field _ _ he scope declared hscope :=
    performs_map (he scope declared hscope) fun _ => performs_pure _
  compare _ _ _ ha hb scope declared hscope :=
    performs_bind (ha scope declared hscope) fun _ =>
      performs_map (hb scope declared hscope) fun _ => performs_pure _
  arith _ _ _ ha hb scope declared hscope :=
    performs_bind (ha scope declared hscope) fun _ =>
      performs_map (hb scope declared hscope) fun _ => performs_pure _
  all _ hes _ _ hscope :=
    performs_map (performs_items hes hscope) fun _ => performs_pure _
  any _ hes _ _ hscope :=
    performs_map (performs_items hes hscope) fun _ => performs_pure _
  not _ he scope declared hscope :=
    performs_map (he scope declared hscope) fun _ => performs_pure _
  array _ hes _ _ hscope :=
    performs_map (performs_items hes hscope) fun _ => performs_pure _
  object _ hms _ _ hscope :=
    performs_map (performs_members hms hscope fun _ => Iff.rfl) fun _ =>
      performs_pure _
  call name es hes _ _ hscope :=
    performs_bind (performs_check name es.length) fun _ =>
      performs_map (performs_items hes hscope) fun _ => performs_pure _
  subquery _ _ hq := hq
  root r _ _ _ := performs_root c r
  indexCreateWith t _ _ hkey _ _ hscope :=
    performs_bind (performs_table t) fun _ =>
      performs_bind (performs_rowFunc hkey hscope) fun _ =>
        performs_node _ rfl
  step _ s hq scope declared hscope :=
    performs_bind (hq scope declared hscope) fun _ =>
      performs_bind_ok (performs_carried c s) fun _ _ hts =>
        performs_map
          (performs_node _ (congrArg (· + 1) (carried_length hts)))
          fun _ => performs_pure _
  rowStep _ _ _ hq hf scope declared hscope :=
    performs_bind (hq scope declared hscope) fun _ =>
      performs_bind (performs_rowFunc hf hscope) fun _ =>
        performs_map (performs_node _ rfl) fun _ => performs_pure _
  orderBy _ _ _ hq hfirst hothers scope declared hscope :=
    performs_bind (hq scope declared hscope) fun _ =>
      performs_bind (performs_key hfirst hscope) fun _ =>
        performs_bind_ok (performs_keys hothers hscope) fun _ _ hts =>
          performs_node _ (congrArg (· + 2) (keys_length hts))
  union _ _ ha hb scope declared hscope :=
    performs_bind (ha scope declared hscope) fun _ =>
      performs_bind (hb scope declared hscope) fun _ =>
        performs_node _ rfl
  reduce _ _ base hq hf scope declared hscope :=
    performs_bind (hq scope declared hscope) fun _ =>
      performs_bind (performs_pairFunc hf hscope) fun _ =>
        performs_bind (performs_optionalLiteral c base) fun _ =>
          performs_map (performs_node _ rfl) fun _ => performs_pure _
  groupBy _ reduction _ hq hkey scope declared hscope :=
    performs_bind (hq scope declared hscope) fun _ =>
      performs_bind (performs_rowFunc hkey hscope) fun _ =>
        performs_bind (performs_reduction reduction) fun _ =>
          performs_node _ rfl
  groupedMapReduce _ _ _ _ base hq hg hm hr scope declared hscope :=
    performs_bind (hq scope declared hscope) fun _ =>
      performs_bind (performs_rowFunc hg hscope) fun _ =>
        performs_bind (performs_rowFunc hm hscope) fun _ =>
          performs_bind (performs_pairFunc hr hscope) fun _ =>
            performs_bind (performs_optionalLiteral c base) fun _ =>
              performs_map (performs_node _ rfl) fun _ => performs_pure _
  join _ _ _ _ ha hb hf scope declared hscope :=
    performs_bind (ha scope declared hscope) fun _ =>
      performs_bind (hb scope declared hscope) fun _ =>
        performs_bind (performs_pairFunc hf hscope) fun _ =>
          performs_node _ rfl
  eqJoin _ member _ _ ha hb scope declared hscope :=
    performs_bind (ha scope declared hscope) fun _ =>
      performs_bind (performs_member .eqJoin member) fun _ =>
        performs_bind (hb scope declared hscope) fun _ =>
          performs_map (performs_node _ rfl) fun _ => performs_pure _

end ChainQuery

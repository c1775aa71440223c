import ChainQuery.Proofs.Induction
import ChainQuery.Proofs.Nodes

/-! # Well-formedness — what is wrong with a chain

    A chain is well formed when every literal in it converts, every call
    is to a known function with the right number of arguments, no object
    names a member twice, every parameter is declared by a function around
    it, and every selector that has to be a member is one.

    The judgement `Query.WellFormed` says so rule by rule and gives no
    reasons.  `Query.violations` lists everything that is wrong, each with
    its reason, in the order in which a term would be built.  Nothing is
    wrong exactly with well-formed chains (`violations_eq_nil_iff`). -/

namespace ChainQuery

/-! ## Literals, calls and selectors -/

/-- A literal the converter takes: every kind in it is supported, and it
    has a datum. -/
def Converter.Accepts (c : Converter) (v : Value) : Prop :=
  (∀ kind ∈ v.kinds, c.supports kind = true) ∧ ∃ d, c.convert v = .ok d

/-- What the converter has against a literal: its unsupported kinds, and
    why it has no datum. -/
def Converter.violations (c : Converter) (v : Value) : List TermError :=
  ((v.kinds.filter fun kind => !c.supports kind).map fun kind =>
      .convert (.unsupported kind)) ++
    match c.convert v with
    | .ok _ => []
    | .error e => [.convert e]

/-- Nothing is wrong exactly with literals that are accepted. -/
theorem accepts_iff {c : Converter} {v : Value} :
    c.violations v = [] ↔ c.Accepts v := by
  rw [Converter.violations, List.append_eq_nil_iff, List.map_eq_nil_iff,
    List.filter_eq_nil_iff, Converter.Accepts]
  refine and_congr (forall₂_congr fun kind _ => by simp) ?_
  cases c.convert v with
  | ok d => exact ⟨fun _ => ⟨d, rfl⟩, fun _ => rfl⟩
  | error e =>
      constructor
      · intro h
        cases h
      · rintro ⟨d, hd⟩
        cases hd

/-- A function of the remote engine that takes so many arguments. -/
def RemoteCall.Known (name : String) (arity : Nat) : Prop :=
  ∃ call ∈ RemoteCall.all, call.name = name ∧ call.arity = arity

/-- What is wrong with a call: its name, or else its arity. -/
def RemoteCall.violations (name : String) (given : Nat) :
    List TermError :=
  match RemoteCall.find? name with
  | none => [.unsupported (.unknownCall name)]
  | some call =>
      if call.arity = given then []
      else [.unsupported (.wrongArity name given call.arity)]

/-- Nothing is wrong exactly with calls to known functions. -/
theorem known_iff {name : String} {given : Nat} :
    RemoteCall.violations name given = [] ↔
      RemoteCall.Known name given := by
  rw [RemoteCall.violations]
  constructor
  · intro h
    cases hf : RemoteCall.find? name with
    | none => rw [hf] at h; cases h
    | some call =>
        rw [hf] at h
        by_cases ha : call.arity = given
        · obtain ⟨hmem, hname⟩ := find_iff.mp hf
          exact ⟨call, hmem, hname, ha⟩
        · simp only [if_neg ha] at h
          cases h
  · rintro ⟨call, hmem, rfl, rfl⟩
    rw [find_iff.mpr ⟨hmem, rfl⟩]
    exact if_pos rfl

/-- A selector whose body is exactly a member of its own row. -/
def RowFunc.IsMember (f : RowFunc) : Prop :=
  ∃ row name, f = .mk row (.field (.param row) name)

/-- What is wrong with a selector that has to be a member. -/
def RowFunc.memberViolations (use : SelectorUse) (f : RowFunc) :
    List TermError :=
  match f.toFunc.memberName? with
  | some _ => []
  | none => [.unsupported (.notMember use f.toFunc.body.form)]

theorem isMember_iff {use : SelectorUse} {f : RowFunc} :
    f.memberViolations use = [] ↔ f.IsMember := by
  rw [RowFunc.memberViolations]
  constructor
  · intro h
    cases hname : f.toFunc.memberName? with
    | none => rw [hname] at h; cases h
    | some name =>
        obtain ⟨row, rfl⟩ := memberName_iff.mp hname
        exact ⟨row, name, rfl⟩
  · rintro ⟨row, name, rfl⟩
    rw [memberName_iff.mpr ⟨row, rfl⟩]

/-- What is wrong with a reduction. -/
def Reduction.violations : Reduction → List TermError
  | .count => []
  | .sum f => f.memberViolations .sum
  | .average f => f.memberViolations .average

/-- A reduction over a member, if over anything. -/
def Reduction.OverMember : Reduction → Prop
  | .count => True
  | .sum f => f.IsMember
  | .average f => f.IsMember

theorem overMember_iff {r : Reduction} :
    r.violations = [] ↔ r.OverMember := by
  cases r with
  | count => exact ⟨fun _ => trivial, fun _ => rfl⟩
  | sum f => exact isMember_iff
  | average f => exact isMember_iff

/-- The literals of a root, in order. -/
def Root.literals : Root → List Value
  | .literal v => [v]
  | .literalSeq vs => vs
  | .insert _ v _ => [v]
  | _ => []

/-- The literals a step carries, in order: a key, the ends of a range, a
    number of rows, a place, a new document. -/
def Step.carried : Step → List Value
  | .get key _ => [key.toValue]
  | .getAll key _ => [key]
  | .between left right _ _ _ => [left, right]
  | .skip rows => [.int rows]
  | .limit rows => [.int rows]
  | .slice start stop => .int start :: (stop.map .int).toList
  | .nth place => [.int place]
  | .replace v _ => [v]
  | .replaceAndReturn v _ => [v]
  | _ => []

/-- A step has converted what it carries, and nothing else. -/
theorem literals_eq_carried (s : Step) : s.literals = s.carried := by
  cases s with
  | slice start stop => cases stop <;> rfl
  | _ => rfl

/-! ## The judgement -/

mutual

/-- An expression is well formed below functions that declare the given
    parameters. -/
inductive Expr.WellFormed (c : Converter) :
    List Param → Expr → Prop where
  | param {declared p} : p ∈ declared →
      Expr.WellFormed c declared (.param p)
  | literal {declared v} : c.Accepts v →
      Expr.WellFormed c declared (.literal v)
  | field {declared e name} : Expr.WellFormed c declared e →
      Expr.WellFormed c declared (.field e name)
  | compare {declared op a b} : Expr.WellFormed c declared a →
      Expr.WellFormed c declared b →
      Expr.WellFormed c declared (.compare op a b)
  | arith {declared op a b} : Expr.WellFormed c declared a →
      Expr.WellFormed c declared b →
      Expr.WellFormed c declared (.arith op a b)
  | all {declared es} : (∀ e ∈ es, Expr.WellFormed c declared e) →
      Expr.WellFormed c declared (.all es)
  | any {declared es} : (∀ e ∈ es, Expr.WellFormed c declared e) →
      Expr.WellFormed c declared (.any es)
  | not {declared e} : Expr.WellFormed c declared e →
      Expr.WellFormed c declared (.not e)
  | array {declared es} : (∀ e ∈ es, Expr.WellFormed c declared e) →
      Expr.WellFormed c declared (.array es)
  | object {declared ms} : (ms.map Prod.fst).Nodup →
      (∀ m ∈ ms, Expr.WellFormed c declared m.2) →
      Expr.WellFormed c declared (.object ms)
  | call {declared name es} : RemoteCall.Known name es.length →
      (∀ e ∈ es, Expr.WellFormed c declared e) →
      Expr.WellFormed c declared (.call name es)
  | subquery {declared i q} : Query.WellFormed c declared q →
      Expr.WellFormed c declared (.subquery i q)

/-- A function is well formed when its body is, below its own parameters
    too. -/
inductive Func.WellFormed (c : Converter) :
    List Param → Func → Prop where
  | mk {declared f} : Expr.WellFormed c (f.params ++ declared) f.body →
      Func.WellFormed c declared f

/-- A chain is well formed below functions that declare the given
    parameters.  A sort key may be any function. -/
inductive Query.WellFormed (c : Converter) :
    List Param → Query → Prop where
  | root {declared r} : (∀ v ∈ r.literals, c.Accepts v) →
      Query.WellFormed c declared (.root r)
  | indexCreateWith {declared t name key} :
      Func.WellFormed c declared (RowFunc.toFunc key) →
      Query.WellFormed c declared (.indexCreateWith t name key)
  | step {declared q s} : Query.WellFormed c declared q →
      (∀ v ∈ s.carried, c.Accepts v) →
      Query.WellFormed c declared (.step q s)
  | rowStep {declared q s f} : Query.WellFormed c declared q →
      Func.WellFormed c declared (RowFunc.toFunc f) →
      Query.WellFormed c declared (.rowStep q s f)
  | orderBy {declared q first others} : Query.WellFormed c declared q →
      (∀ k ∈ first :: others,
        Func.WellFormed c declared (SortKey.toOrderKey k).selector) →
      Query.WellFormed c declared (.orderBy q first others)
  | union {declared a b} : Query.WellFormed c declared a →
      Query.WellFormed c declared b →
      Query.WellFormed c declared (.union a b)
  | reduce {declared q f base} : Query.WellFormed c declared q →
      Func.WellFormed c declared (PairFunc.toFunc f) →
      (∀ v ∈ base, c.Accepts v) →
      Query.WellFormed c declared (.reduce q f base)
  | groupBy {declared q reduction key} : Query.WellFormed c declared q →
      Func.WellFormed c declared (RowFunc.toFunc key) →
      reduction.OverMember →
      Query.WellFormed c declared (.groupBy q reduction key)
  | groupedMapReduce {declared q g m r base} :
      Query.WellFormed c declared q →
      Func.WellFormed c declared (RowFunc.toFunc g) →
      Func.WellFormed c declared (RowFunc.toFunc m) →
      Func.WellFormed c declared (PairFunc.toFunc r) →
      (∀ v ∈ base, c.Accepts v) →
      Query.WellFormed c declared (.groupedMapReduce q g m r base)
  | join {declared kind a b f} : Query.WellFormed c declared a →
      Query.WellFormed c declared b →
      Func.WellFormed c declared (PairFunc.toFunc f) →
      Query.WellFormed c declared (.join kind a b f)
  | eqJoin {declared a member b index} : Query.WellFormed c declared a →
      member.IsMember → Query.WellFormed c declared b →
      Query.WellFormed c declared (.eqJoin a member b index)

end

/-! ## The reasons -/

mutual

/-- What is wrong with an expression, in build order. -/
def Expr.violations (c : Converter) (declared : List Param) :
    Expr → List TermError
  | .param p =>
      if p ∈ declared then [] else [.unsupported (.freeParam p)]
  | .literal v => c.violations v
  | .field target _ => Expr.violations c declared target
  | .compare _ left right =>
      Expr.violations c declared left ++ Expr.violations c declared right
  | .arith _ left right =>
      Expr.violations c declared left ++ Expr.violations c declared right
  | .all items => itemViolations c declared items
  | .any items => itemViolations c declared items
  | .not e => Expr.violations c declared e
  | .array items => itemViolations c declared items
  | .object members => memberViolations c declared [] members
  | .call name args =>
      RemoteCall.violations name args.length ++
        itemViolations c declared args
  | .subquery _ q => Query.violations c declared q
termination_by structural e => e

/-- What is wrong with expressions, in order. -/
def itemViolations (c : Converter) (declared : List Param) :
    List Expr → List TermError
  | [] => []
  | e :: es => Expr.violations c declared e ++ itemViolations c declared es
termination_by structural es => es

/-- What is wrong with object members, in order.  That a name occurred
    `earlier` comes after what is wrong with the member itself. -/
def memberViolations (c : Converter) (declared : List Param)
    (earlier : List String) : List (String × Expr) → List TermError
  | [] => []
  | (name, e) :: rest =>
      Expr.violations c declared e ++
        ((if name ∈ earlier then [.unsupported (.duplicateMember name)]
          else []) ++
        memberViolations c declared (name :: earlier) rest)
termination_by structural members => members

/-- What is wrong with a function of one row. -/
def RowFunc.violations (c : Converter) (declared : List Param) :
    RowFunc → List TermError
  | .mk row body => Expr.violations c (row :: declared) body
termination_by structural f => f

/-- What is wrong with a function of two rows. -/
def PairFunc.violations (c : Converter) (declared : List Param) :
    PairFunc → List TermError
  | .mk left right body => Expr.violations c (left :: right :: declared) body
termination_by structural f => f

/-- What is wrong with a sort key. -/
def SortKey.violations (c : Converter) (declared : List Param) :
    SortKey → List TermError
  | .mk selector _ => RowFunc.violations c declared selector
termination_by structural k => k

/-- What is wrong with sort keys, in order. -/
def keyViolations (c : Converter) (declared : List Param) :
    List SortKey → List TermError
  | [] => []
  | k :: ks => SortKey.violations c declared k ++ keyViolations c declared ks
termination_by structural ks => ks

/-- What is wrong with a chain, in build order: sources before operands,
    operands from left to right. -/
def Query.violations (c : Converter) (declared : List Param) :
    Query → List TermError
  | .root r => r.literals.flatMap c.violations
  | .indexCreateWith _ _ key => RowFunc.violations c declared key
  | .step source s =>
      Query.violations c declared source ++ s.carried.flatMap c.violations
  | .rowStep source _ f =>
      Query.violations c declared source ++ RowFunc.violations c declared f
  | .orderBy source first others =>
      Query.violations c declared source ++
        (SortKey.violations c declared first ++
          keyViolations c declared others)
  | .union first second =>
      Query.violations c declared first ++
        Query.violations c declared second
  | .reduce source f base =>
      Query.violations c declared source ++
        (PairFunc.violations c declared f ++
          base.toList.flatMap c.violations)
  | .groupBy source reduction key =>
      Query.violations c declared source ++
        (RowFunc.violations c declared key ++ reduction.violations)
  | .groupedMapReduce source grouping mapping reduction base =>
      Query.violations c declared source ++
        (RowFunc.violations c declared grouping ++
          (RowFunc.violations c declared mapping ++
            (PairFunc.violations c declared reduction ++
              base.toList.flatMap c.violations)))
  | .join _ left right predicate =>
      Query.violations c declared left ++
        (Query.violations c declared right ++
          PairFunc.violations c declared predicate)
  | .eqJoin left member right _ =>
      Query.violations c declared left ++
        (member.memberViolations .eqJoin ++
          Query.violations c declared right)
termination_by structural q => q

end

/-! ## Nothing is wrong with well-formed chains only -/

variable {c : Converter} {declared : List Param}

/-- Nothing is wrong with an expression exactly where it is well
    formed. -/
def Expr.Assessed (c : Converter) (e : Expr) : Prop :=
  ∀ declared, e.violations c declared = [] ↔ e.WellFormed c declared

/-- Nothing is wrong with a chain exactly where it is well formed. -/
def Query.Assessed (c : Converter) (q : Query) : Prop :=
  ∀ declared, q.violations c declared = [] ↔ q.WellFormed c declared

theorem literals_assessed {vs : List Value} :
    vs.flatMap c.violations = [] ↔ ∀ v ∈ vs, c.Accepts v := by
  rw [List.flatMap_eq_nil_iff]
  exact forall₂_congr fun v _ => accepts_iff

theorem base_assessed {base : Option Value} :
    base.toList.flatMap c.violations = [] ↔ ∀ v ∈ base, c.Accepts v := by
  rw [literals_assessed]
  exact forall_congr' fun v => imp_congr Option.mem_toList Iff.rfl

theorem items_assessed {es : List Expr} (h : ∀ e ∈ es, e.Assessed c) :
    itemViolations c declared es = [] ↔
      ∀ e ∈ es, e.WellFormed c declared := by
  induction es with
  | nil => exact ⟨fun _ => List.forall_mem_nil _, fun _ => rfl⟩
  | cons e es ih =>
      obtain ⟨he, hes⟩ := List.forall_mem_cons.mp h
      rw [itemViolations, List.append_eq_nil_iff, he declared, ih hes,
        List.forall_mem_cons]

theorem members_assessed {ms : List (String × Expr)}
    {earlier : List String} (h : ∀ m ∈ ms, m.2.Assessed c) :
    memberViolations c declared earlier ms = [] ↔
      ((ms.map Prod.fst).Nodup ∧ ∀ m ∈ ms, m.1 ∉ earlier) ∧
        ∀ m ∈ ms, m.2.WellFormed c declared := by
  induction ms generalizing earlier with
  | nil =>
      exact ⟨fun _ => ⟨⟨List.nodup_nil, List.forall_mem_nil _⟩,
        List.forall_mem_nil _⟩, fun _ => rfl⟩
  | cons m ms ih =>
      obtain ⟨name, e⟩ := m
      obtain ⟨he, hms⟩ := List.forall_mem_cons.mp h
      rw [memberViolations, List.append_eq_nil_iff,
        List.append_eq_nil_iff, he declared, ih hms, List.map_cons,
        List.nodup_cons, List.forall_mem_cons, List.forall_mem_cons]
      by_cases hname : name ∈ earlier
      · rw [if_pos hname]
        simp [hname]
      · rw [if_neg hname]
        -- No later member repeats this name or an earlier one: told from
        -- the front on the left, pair by pair on the right.
        simp only [List.mem_cons, not_or, List.mem_map, Prod.exists]
        grind

/-- A function is well formed exactly when its body is. -/
theorem func_wellFormed_iff {f : Func} :
    f.WellFormed c declared ↔
      f.body.WellFormed c (f.params ++ declared) := by
  constructor
  · intro h
    cases h with
    | mk hbody => exact hbody
  · exact .mk

theorem rowFunc_assessed {f : RowFunc} (h : f.toFunc.body.Assessed c) :
    f.violations c declared = [] ↔ f.toFunc.WellFormed c declared := by
  obtain ⟨row, body⟩ := f
  rw [func_wellFormed_iff]
  exact h (row :: declared)

theorem pairFunc_assessed {f : PairFunc} (h : f.toFunc.body.Assessed c) :
    f.violations c declared = [] ↔ f.toFunc.WellFormed c declared := by
  obtain ⟨left, right, body⟩ := f
  rw [func_wellFormed_iff]
  exact h (left :: right :: declared)

theorem key_assessed {k : SortKey} (h : k.body.Assessed c) :
    k.violations c declared = [] ↔
      k.toOrderKey.selector.WellFormed c declared := by
  obtain ⟨selector, direction⟩ := k
  exact rowFunc_assessed h

theorem keys_assessed {ks : List SortKey}
    (h : ∀ k ∈ ks, k.body.Assessed c) :
    keyViolations c declared ks = [] ↔
      ∀ k ∈ ks, k.toOrderKey.selector.WellFormed c declared := by
  induction ks with
  | nil => exact ⟨fun _ => List.forall_mem_nil _, fun _ => rfl⟩
  | cons k ks ih =>
      obtain ⟨hk, hks⟩ := List.forall_mem_cons.mp h
      rw [keyViolations, List.append_eq_nil_iff, key_assessed hk, ih hks,
        List.forall_mem_cons]

/-- The list of violations fits the judgement, rule by rule. -/
theorem assessed_hereditary (c : Converter) :
    Hereditary (Expr.Assessed c) (Query.Assessed c) where
  param p declared := by
    rw [Expr.violations]
    by_cases hp : p ∈ declared
    · rw [if_pos hp]
      exact ⟨fun _ => .param hp, fun _ => rfl⟩
    · rw [if_neg hp]
      constructor
      · intro h
        cases h
      · intro h
        cases h with
        | param hmem => exact absurd hmem hp
  literal v declared := by
    rw [Expr.violations, accepts_iff]
    constructor
    · exact .literal
    · intro h
      cases h with
      | literal h => exact h
  field e name he declared := by
    rw [Expr.violations, he declared]
    constructor
    · exact .field
    · intro h
      cases h with
      | field h => exact h
  compare op a b ha hb declared := by
    rw [Expr.violations, List.append_eq_nil_iff, ha declared, hb declared]
    constructor
    · rintro ⟨h, h'⟩
      exact .compare h h'
    · intro h
      cases h with
      | compare h h' => exact ⟨h, h'⟩
  arith op a b ha hb declared := by
    rw [Expr.violations, List.append_eq_nil_iff, ha declared, hb declared]
    constructor
    · rintro ⟨h, h'⟩
      exact .arith h h'
    · intro h
      cases h with
      | arith h h' => exact ⟨h, h'⟩
  all es hes declared := by
    rw [Expr.violations, items_assessed hes]
    constructor
    · exact .all
    · intro h
      cases h with
      | all h => exact h
  any es hes declared := by
    rw [Expr.violations, items_assessed hes]
    constructor
    · exact .any
    · intro h
      cases h with
      | any h => exact h
  not e he declared := by
    rw [Expr.violations, he declared]
    constructor
    · exact .not
    · intro h
      cases h with
      | not h => exact h
  array es hes declared := by
    rw [Expr.violations, items_assessed hes]
    constructor
    · exact .array
    · intro h
      cases h with
      | array h => exact h
  object ms hms declared := by
    rw [Expr.violations, members_assessed hms]
    have hnone : ∀ m ∈ ms, m.1 ∉ ([] : List String) :=
      fun _ _ => List.not_mem_nil
    constructor
    · rintro ⟨⟨hnodup, -⟩, h⟩
      exact .object hnodup h
    · intro h
      cases h with
      | object hnodup h => exact ⟨⟨hnodup, hnone⟩, h⟩
  call name es hes declared := by
    rw [Expr.violations, List.append_eq_nil_iff, known_iff,
      items_assessed hes]
    constructor
    · rintro ⟨h, h'⟩
      exact .call h h'
    · intro h
      cases h with
      | call h h' => exact ⟨h, h'⟩
  subquery i q hq declared := by
    rw [Expr.violations, hq declared]
    constructor
    · exact .subquery
    · intro h
      cases h with
      | subquery h => exact h
  root r declared := by
    rw [Query.violations, literals_assessed]
    constructor
    · exact .root
    · intro h
      cases h with
      | root h => exact h
  indexCreateWith t name key hkey declared := by
    rw [Query.violations, rowFunc_assessed hkey]
    constructor
    · exact .indexCreateWith
    · intro h
      cases h with
      | indexCreateWith h => exact h
  step q s hq declared := by
    rw [Query.violations, List.append_eq_nil_iff, hq declared,
      literals_assessed]
    constructor
    · rintro ⟨h, h'⟩
      exact .step h h'
    · intro h
      cases h with
      | step h h' => exact ⟨h, h'⟩
  rowStep q s f hq hf declared := by
    rw [Query.violations, List.append_eq_nil_iff, hq declared,
      rowFunc_assessed hf]
    constructor
    · rintro ⟨h, h'⟩
      exact .rowStep h h'
    · intro h
      cases h with
      | rowStep h h' => exact ⟨h, h'⟩
  orderBy q first others hq hfirst hothers declared := by
    rw [Query.violations, List.append_eq_nil_iff,
      List.append_eq_nil_iff, hq declared, key_assessed hfirst,
      keys_assessed hothers]
    constructor
    · rintro ⟨h, hkeys⟩
      exact .orderBy h (List.forall_mem_cons.mpr hkeys)
    · intro h
      cases h with
      | orderBy h hkeys => exact ⟨h, List.forall_mem_cons.mp hkeys⟩
  union a b ha hb declared := by
    rw [Query.violations, List.append_eq_nil_iff, ha declared, hb declared]
    constructor
    · rintro ⟨h, h'⟩
      exact .union h h'
    · intro h
      cases h with
      | union h h' => exact ⟨h, h'⟩
  reduce q f base hq hf declared := by
    rw [Query.violations, List.append_eq_nil_iff,
      List.append_eq_nil_iff, hq declared, pairFunc_assessed hf,
      base_assessed]
    constructor
    · rintro ⟨h, hf, hbase⟩
      exact .reduce h hf hbase
    · intro h
      cases h with
      | reduce h hf hbase => exact ⟨h, hf, hbase⟩
  groupBy q reduction key hq hkey declared := by
    rw [Query.violations, List.append_eq_nil_iff,
      List.append_eq_nil_iff, hq declared, rowFunc_assessed hkey,
      overMember_iff]
    constructor
    · rintro ⟨h, hkey, hover⟩
      exact .groupBy h hkey hover
    · intro h
      cases h with
      | groupBy h hkey hover => exact ⟨h, hkey, hover⟩
  groupedMapReduce q g m r base hq hg hm hr declared := by
    rw [Query.violations, List.append_eq_nil_iff,
      List.append_eq_nil_iff, List.append_eq_nil_iff,
      List.append_eq_nil_iff, hq declared, rowFunc_assessed hg,
      rowFunc_assessed hm, pairFunc_assessed hr, base_assessed]
    constructor
    · rintro ⟨h, hg, hm, hr, hbase⟩
      exact .groupedMapReduce h hg hm hr hbase
    · intro h
      cases h with
      | groupedMapReduce h hg hm hr hbase => exact ⟨h, hg, hm, hr, hbase⟩
  join kind a b f ha hb hf declared := by
    rw [Query.violations, List.append_eq_nil_iff,
      List.append_eq_nil_iff, ha declared, hb declared,
      pairFunc_assessed hf]
    constructor
    · rintro ⟨h, h', hf⟩
      exact .join h h' hf
    · intro h
      cases h with
      | join h h' hf => exact ⟨h, h', hf⟩
  eqJoin a member b index ha hb declared := by
    rw [Query.violations, List.append_eq_nil_iff,
      List.append_eq_nil_iff, ha declared, isMember_iff, hb declared]
    constructor
    · rintro ⟨h, hm, h'⟩
      exact .eqJoin h hm h'
    · intro h
      cases h with
      | eqJoin h hm h' => exact ⟨h, hm, h'⟩

/-- Nothing is wrong with a chain exactly when it is well formed. -/
theorem violations_eq_nil_iff (c : Converter) (declared : List Param)
    (q : Query) :
    q.violations c declared = [] ↔ q.WellFormed c declared :=
  (assessed_hereditary c).query q declared

end ChainQuery

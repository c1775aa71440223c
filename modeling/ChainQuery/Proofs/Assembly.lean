import ChainQuery.Proofs.Nodes
import ChainQuery.Proofs.Scoping

/-! # Assembly — terms put together from parts

    The term of almost every node is an operation whose arguments are the
    terms of its parts, each in the environment of the node
    (`Assembled`).  What a part is does not matter here: an expression, a
    chain, a function, a literal, or a leaf that is always there.  Two
    forms are left out: a reference is looked up in the environment, and
    the body of a function stands in another one (`gives_function`). -/

namespace ChainQuery

open Translation

/-! ## Terms that a translation can give -/

variable {α β : Type}

/-- A result that a translation gives, wherever its numbers start. -/
def Translation.Gives (y : Translation α) (a : α) : Prop :=
  ∃ n, (y n).1 = .ok a

theorem gives_pure {a b : α} (h : Gives (pure a) b) : b = a := by
  obtain ⟨n, hn⟩ := h
  exact (Except.ok.inj hn).symm

theorem gives_ofExcept {r : Except TermError α} {a : α}
    (h : Gives (ofExcept r) a) : r = .ok a := by
  obtain ⟨n, hn⟩ := h
  exact hn

theorem gives_fail {e : TermError} {a : α} (h : Gives (fail e) a) :
    False := by
  obtain ⟨n, hn⟩ := h
  cases hn

/-- A sequence goes on with what its first part gives. -/
theorem bind_of_ok {x : Translation α} {f : α → Translation β} {a : α}
    {n m : Nat} (h : x n = (.ok a, m)) : (x >>= f) n = f a m := by
  show andThen x f n = f a m
  rw [andThen, h]

/-- What a sequence gives, its second part gives from what its first part
    gives. -/
theorem gives_bind {x : Translation α} {f : α → Translation β} {b : β}
    (h : Gives (x >>= f) b) : ∃ a, Gives x a ∧ Gives (f a) b := by
  obtain ⟨n, hn⟩ := h
  replace hn : (andThen x f n).1 = .ok b := hn
  rw [andThen] at hn
  rcases hx : x n with ⟨r, m⟩
  rw [hx] at hn
  cases r with
  | error e => cases hn
  | ok a => exact ⟨a, ⟨n, congrArg Prod.fst hx⟩, ⟨m, hn⟩⟩

/-! ## Parts -/

/-- What has a term in an environment. -/
abbrev Part := Environment → Translation Term

/-- A term that is always there. -/
def Part.const (t : Term) : Part :=
  fun _ => pure t

/-- A result that needs no environment. -/
def Part.result (r : Except TermError Term) : Part :=
  fun _ => ofExcept r

/-- A literal. -/
def Part.literal (c : Converter) (v : Value) : Part :=
  .result (c.judge v)

/-- An expression. -/
def Expr.part (c : Converter) (e : Expr) : Part :=
  fun env => e.translate c env

/-- A chain. -/
def Query.part (c : Converter) (q : Query) : Part :=
  fun env => q.translate c env

/-- A function. -/
def Func.part (c : Converter) (f : Func) : Part :=
  fun env => f.translate c env

/-- What to sort by: a name, or a function. -/
def RowFunc.keyPart (c : Converter) (f : RowFunc) : Part :=
  fun env => nameOrTranslate f.toFunc.memberName? (f.translate c env)

/-- A sort key. -/
def SortKey.part (c : Converter) (k : SortKey) : Part :=
  fun env => k.translate c env

/-- A base. -/
def basePart (c : Converter) (base : Option Value) : List (String × Part) :=
  base.toList.map fun v => ("base", .literal c v)

/-- Names and flags, as parts that are always there. -/
def constParts (names : List (String × Term)) : List (String × Part) :=
  names.map fun e => (e.1, .const e.2)

variable {c : Converter} {env : Environment}

/-- In an environment, terms of parts one by one. -/
def PartsGive (env : Environment) (parts : List Part) (ts : List Term) :
    Prop :=
  List.Forall₂ (fun part t => Gives (part env) t) parts ts

/-- In an environment, terms of named parts one by one. -/
def NamedGive (env : Environment) (named : List (String × Part))
    (ts : List (String × Term)) : Prop :=
  List.Forall₂ (fun m e => m.1 = e.1 ∧ Gives (m.2 env) e.2) named ts

theorem const_gives (env : Environment) (t : Term) :
    Gives (Part.const t env) t :=
  ⟨0, rfl⟩

theorem literal_gives (env : Environment) {v : Value} {t : Term}
    (h : c.judge v = .ok t) : Gives (Part.literal c v env) t :=
  ⟨0, h⟩

theorem literals_give {vs : List Value} {ts : List Term}
    (h : c.judgeAll vs = .ok ts) :
    PartsGive env (vs.map (.literal c)) ts :=
  List.forall₂_map_left_iff.mpr
    ((judgeAll_ok h).imp fun _ _ => literal_gives env)

theorem constParts_give (names : List (String × Term)) :
    NamedGive env (constParts names) names := by
  induction names with
  | nil => exact .nil
  | cons e rest ih => exact .cons ⟨rfl, const_gives env e.2⟩ ih

theorem items_give {es : List Expr} {ts : List Term}
    (h : Gives (translateItems c env es) ts) :
    PartsGive env (es.map (Expr.part c)) ts := by
  induction es generalizing ts with
  | nil =>
      cases gives_pure h
      exact .nil
  | cons e es ih =>
      rw [translateItems] at h
      obtain ⟨t, he, h⟩ := gives_bind h
      obtain ⟨ts', hes, h⟩ := gives_bind h
      cases gives_pure h
      exact .cons he (ih hes)

theorem keys_give {ks : List SortKey} {ts : List Term}
    (h : Gives (translateKeys c env ks) ts) :
    PartsGive env (ks.map (SortKey.part c)) ts := by
  induction ks generalizing ts with
  | nil =>
      cases gives_pure h
      exact .nil
  | cons k ks ih =>
      rw [translateKeys] at h
      obtain ⟨t, hk, h⟩ := gives_bind h
      obtain ⟨ts', hks, h⟩ := gives_bind h
      cases gives_pure h
      exact .cons hk (ih hks)

/-- The terms of members, among those done before, in some order. -/
theorem members_give {ms : List (String × Expr)}
    {done out : List (String × Term)}
    (h : Gives (translateMembers c env ms done) out) :
    ∃ ts, NamedGive env (ms.map fun m => (m.1, m.2.part c)) ts ∧
      out.Perm (ts ++ done) := by
  induction ms generalizing done with
  | nil =>
      cases gives_pure h
      exact ⟨[], .nil, List.Perm.refl _⟩
  | cons m ms ih =>
      obtain ⟨name, e⟩ := m
      rw [translateMembers] at h
      obtain ⟨t, he, h⟩ := gives_bind h
      by_cases hd : Entries.has name done = true
      · rw [if_pos hd] at h
        exact (gives_fail h).elim
      · rw [if_neg hd] at h
        obtain ⟨ts, hts, hperm⟩ := ih h
        have hput := Entries.put_perm t (mt Entries.has_iff.mpr hd)
        -- As written the member comes first; where it was put does not
        -- matter up to order.
        refine ⟨(name, t) :: ts, .cons ⟨rfl, he⟩ hts, ?_⟩
        exact (hperm.trans (hput.append_left ts)).trans
          List.perm_middle

/-- The term of a function is that of its body, with its parameters
    declared, below their numbers, which are the next ones. -/
theorem function_of_ok {f : Func} {n : Nat} {t : Term}
    (h : (f.part c env n).1 = .ok t) :
    ∃ body, Gives (f.body.part c (env.declare f.params n)) body ∧
      t = .function (List.range' n f.params.length) body := by
  replace h : (andThen (f.body.translate c (env.declare f.params n)) _
    (n + f.params.length)).1 = .ok t := h
  rw [andThen] at h
  rcases hx : f.body.translate c (env.declare f.params n)
    (n + f.params.length) with ⟨r, m⟩
  rw [hx] at h
  cases r with
  | error e => cases h
  | ok body =>
      exact ⟨body, ⟨_, congrArg Prod.fst hx⟩, (Except.ok.inj h).symm⟩

theorem gives_function {f : Func} {t : Term}
    (h : Gives (f.part c env) t) :
    ∃ first body, Gives (f.body.part c (env.declare f.params first)) body ∧
      t = .function (List.range' first f.params.length) body := by
  obtain ⟨n, hn⟩ := h
  exact ⟨n, function_of_ok hn⟩

/-! ## Assembled nodes -/

/-- In every environment the term is an operation of the given kind, with
    the terms of the given parts. -/
def Assembled (kind : Term.Kind) (parts : List Part)
    (named : List (String × Part)) (x : Part) : Prop :=
  ∀ env t, Gives (x env) t → ∃ args optargs,
    t = .apply kind args optargs ∧ PartsGive env parts args ∧
      NamedGive env named optargs

/-- The kind of an assembled term. -/
theorem kind_of_assembled {kind : Term.Kind} {parts : List Part}
    {named : List (String × Part)} {x : Part}
    (h : Assembled kind parts named x) {t : Term} (ht : Gives (x env) t) :
    t.kind = kind := by
  obtain ⟨args, optargs, rfl, -, -⟩ := h env t ht
  rfl

/-- The names and flags of a step. -/
def Step.names (s : Step) : List (String × Term) :=
  (s.attach (.node s.kind [])).optargs

theorem attach_step (s : Step) (args : List Term) :
    s.attach (.node s.kind args) = .apply s.kind args s.names := by
  cases s with
  | get key keyMember => cases keyMember <;> rfl
  | getAll key index => cases index <;> rfl
  | between left right index lb rb => cases index <;> rfl
  | replace v nonAtomic => cases nonAtomic <;> rfl
  | replaceAndReturn v nonAtomic => cases nonAtomic <;> rfl
  | _ => rfl

/-- The flags of a row step. -/
def RowStep.names (s : RowStep) : List (String × Term) :=
  (s.attach (.node s.kind [])).optargs

theorem attach_rowStep (s : RowStep) (args : List Term) :
    s.attach (.node s.kind args) = .apply s.kind args s.names := by
  cases s with
  | update nonAtomic => cases nonAtomic <;> rfl
  | updateAndReturn nonAtomic => cases nonAtomic <;> rfl
  | _ => rfl

/-- What a step attaches are leaves. -/
theorem step_names_leaf (s : Step) :
    ∀ e ∈ s.names, ∃ d, e.2 = .datum d := by
  obtain ⟨names, heq, hleaf⟩ := decorated_step s []
  rw [attach_step] at heq
  cases heq
  exact hleaf

theorem rowStep_names_leaf (s : RowStep) :
    ∀ e ∈ s.names, ∃ d, e.2 = .datum d := by
  obtain ⟨names, heq, hleaf⟩ := decorated_rowStep s []
  rw [attach_rowStep] at heq
  cases heq
  exact hleaf

theorem rowFunc_gives {f : RowFunc} {t : Term}
    (h : Gives (f.translate c env) t) : Gives (f.toFunc.part c env) t := by
  rw [rowFunc_translate] at h
  exact h

theorem pairFunc_gives {f : PairFunc} {t : Term}
    (h : Gives (f.translate c env) t) : Gives (f.toFunc.part c env) t := by
  rw [pairFunc_translate] at h
  exact h

theorem base_gives {base : Option Value} {b : Option Term} {t : Term}
    {kind : Term.Kind} {args : List Term}
    (h : c.judgeOptional base = .ok b)
    (ht : t = (Term.node kind args).withOptional "base" b) :
    ∃ optargs, t = .apply kind args optargs ∧
      NamedGive env (basePart c base) optargs := by
  subst ht
  cases base with
  | none =>
      cases h
      exact ⟨[], rfl, .nil⟩
  | some v =>
      obtain ⟨leaf, hv, hok⟩ := bind_eq_ok.mp h
      cases hok
      exact ⟨[("base", leaf)], rfl, .cons ⟨rfl, literal_gives env hv⟩ .nil⟩

/-! ## Expressions -/

variable (c)

theorem assembled_field (e : Expr) (name : String) :
    Assembled .getField [e.part c, .const (.text name)] []
      (Expr.part c (.field e name)) := by
  intro env t h
  obtain ⟨te, he, h⟩ := gives_bind h
  cases gives_pure h
  exact ⟨_, _, rfl, .cons he (.cons (const_gives env _) .nil), .nil⟩

theorem assembled_compare (op : CompareOp) (a b : Expr) :
    Assembled op.kind [a.part c, b.part c] []
      (Expr.part c (.compare op a b)) := by
  intro env t h
  obtain ⟨ta, ha, h⟩ := gives_bind h
  obtain ⟨tb, hb, h⟩ := gives_bind h
  cases gives_pure h
  exact ⟨_, _, rfl, .cons ha (.cons hb .nil), .nil⟩

theorem assembled_arith (op : ArithOp) (a b : Expr) :
    Assembled op.kind [a.part c, b.part c] []
      (Expr.part c (.arith op a b)) := by
  intro env t h
  obtain ⟨ta, ha, h⟩ := gives_bind h
  obtain ⟨tb, hb, h⟩ := gives_bind h
  cases gives_pure h
  exact ⟨_, _, rfl, .cons ha (.cons hb .nil), .nil⟩

theorem assembled_all (es : List Expr) :
    Assembled .and (es.map (Expr.part c)) [] (Expr.part c (.all es)) := by
  intro env t h
  obtain ⟨ts, hes, h⟩ := gives_bind h
  cases gives_pure h
  exact ⟨_, _, rfl, items_give hes, .nil⟩

theorem assembled_any (es : List Expr) :
    Assembled .or (es.map (Expr.part c)) [] (Expr.part c (.any es)) := by
  intro env t h
  obtain ⟨ts, hes, h⟩ := gives_bind h
  cases gives_pure h
  exact ⟨_, _, rfl, items_give hes, .nil⟩

theorem assembled_not (e : Expr) :
    Assembled .not [e.part c] [] (Expr.part c (.not e)) := by
  intro env t h
  obtain ⟨te, he, h⟩ := gives_bind h
  cases gives_pure h
  exact ⟨_, _, rfl, .cons he .nil, .nil⟩

theorem assembled_array (es : List Expr) :
    Assembled .makeArray (es.map (Expr.part c)) []
      (Expr.part c (.array es)) := by
  intro env t h
  obtain ⟨ts, hes, h⟩ := gives_bind h
  cases gives_pure h
  exact ⟨_, _, rfl, items_give hes, .nil⟩

theorem assembled_call {name : String} {es : List Expr}
    {kind : Term.Kind} (hkind : RemoteCall.judge name es.length = .ok kind) :
    Assembled kind (es.map (Expr.part c)) []
      (Expr.part c (.call name es)) := by
  intro env t h
  obtain ⟨kind', hkind', h⟩ := gives_bind h
  cases hkind.symm.trans (gives_ofExcept hkind')
  obtain ⟨ts, hes, h⟩ := gives_bind h
  cases gives_pure h
  exact ⟨_, _, rfl, items_give hes, .nil⟩

/-- A call that has a term is to a known function. -/
theorem call_judged {name : String} {es : List Expr} {t : Term}
    (h : Gives (Expr.part c (.call name es) env) t) :
    RemoteCall.judge name es.length = .ok t.kind := by
  obtain ⟨kind, hkind, -⟩ := gives_bind h
  have hjudge := gives_ofExcept hkind
  rw [kind_of_assembled (assembled_call c hjudge) h]
  exact hjudge

/-- An object has the terms of its members, in some order. -/
theorem gives_object {ms : List (String × Expr)} {t : Term}
    (h : Gives (Expr.part c (.object ms) env) t) :
    ∃ out ts, t = .apply .makeObj [] out ∧ out.Perm ts ∧
      NamedGive env (ms.map fun m => (m.1, m.2.part c)) ts := by
  obtain ⟨out, hout, h⟩ := gives_bind h
  cases gives_pure h
  obtain ⟨ts, hts, hperm⟩ := members_give hout
  rw [List.append_nil] at hperm
  exact ⟨out, ts, rfl, hperm, hts⟩

/-! ## Chains -/

theorem assembled_key (f : RowFunc) (direction : Direction) :
    Assembled direction.kind [f.keyPart c] []
      (SortKey.part c (.mk f direction)) := by
  intro env t h
  rw [SortKey.part, translate_key] at h
  obtain ⟨key, hkey, h⟩ := gives_bind h
  cases gives_pure h
  exact ⟨_, _, rfl, .cons hkey .nil, .nil⟩

theorem assembled_indexCreateWith (table : Table) (name : String)
    (key : RowFunc) :
    Assembled .indexCreate
      [.const table.term, .const (.text name), key.toFunc.part c] []
      (Query.part c (.indexCreateWith table name key)) := by
  intro env t h
  obtain ⟨tkey, hkey, h⟩ := gives_bind h
  cases gives_pure h
  exact ⟨_, _, rfl, .cons (const_gives env _) (.cons (const_gives env _)
    (.cons (rowFunc_gives hkey) .nil)), .nil⟩

theorem assembled_step (q : Query) (s : Step) :
    Assembled s.kind (q.part c :: s.literals.map (.literal c))
      (constParts s.names) (Query.part c (.step q s)) := by
  intro env t h
  obtain ⟨source, hsource, h⟩ := gives_bind h
  obtain ⟨literals, hliterals, h⟩ := gives_bind h
  cases gives_pure h
  exact ⟨_, _, attach_step s _,
    .cons hsource (literals_give (gives_ofExcept hliterals)),
    constParts_give s.names⟩

theorem assembled_rowStep (q : Query) (s : RowStep) (f : RowFunc) :
    Assembled s.kind [q.part c, f.toFunc.part c] (constParts s.names)
      (Query.part c (.rowStep q s f)) := by
  intro env t h
  obtain ⟨source, hsource, h⟩ := gives_bind h
  obtain ⟨tf, hf, h⟩ := gives_bind h
  cases gives_pure h
  exact ⟨_, _, attach_rowStep s _,
    .cons hsource (.cons (rowFunc_gives hf) .nil), constParts_give s.names⟩

theorem assembled_orderBy (q : Query) (first : SortKey)
    (others : List SortKey) :
    Assembled .orderBy
      (q.part c :: (first :: others).map (SortKey.part c)) []
      (Query.part c (.orderBy q first others)) := by
  intro env t h
  obtain ⟨source, hsource, h⟩ := gives_bind h
  obtain ⟨tfirst, hfirst, h⟩ := gives_bind h
  obtain ⟨tothers, hothers, h⟩ := gives_bind h
  cases gives_pure h
  exact ⟨_, _, rfl, .cons hsource (.cons hfirst (keys_give hothers)), .nil⟩

theorem assembled_union (a b : Query) :
    Assembled .union [a.part c, b.part c] []
      (Query.part c (.union a b)) := by
  intro env t h
  obtain ⟨ta, ha, h⟩ := gives_bind h
  obtain ⟨tb, hb, h⟩ := gives_bind h
  cases gives_pure h
  exact ⟨_, _, rfl, .cons ha (.cons hb .nil), .nil⟩

theorem assembled_reduce (q : Query) (f : PairFunc) (base : Option Value) :
    Assembled .reduce [q.part c, f.toFunc.part c] (basePart c base)
      (Query.part c (.reduce q f base)) := by
  intro env t h
  obtain ⟨source, hsource, h⟩ := gives_bind h
  obtain ⟨tf, hf, h⟩ := gives_bind h
  obtain ⟨b, hb, h⟩ := gives_bind h
  obtain ⟨optargs, ht, hbase⟩ :=
    base_gives (gives_ofExcept hb) (gives_pure h)
  exact ⟨_, _, ht, .cons hsource (.cons (pairFunc_gives hf) .nil), hbase⟩

theorem assembled_groupBy (q : Query) (reduction : Reduction)
    (key : RowFunc) :
    Assembled .groupBy
      [q.part c, key.toFunc.part c, .result reduction.judge] []
      (Query.part c (.groupBy q reduction key)) := by
  intro env t h
  obtain ⟨source, hsource, h⟩ := gives_bind h
  obtain ⟨tkey, hkey, h⟩ := gives_bind h
  obtain ⟨object, hobject, h⟩ := gives_bind h
  cases gives_pure h
  exact ⟨_, _, rfl,
    .cons hsource (.cons (rowFunc_gives hkey) (.cons hobject .nil)), .nil⟩

theorem assembled_groupedMapReduce (q : Query) (f g : RowFunc)
    (r : PairFunc) (base : Option Value) :
    Assembled .groupedMapReduce
      [q.part c, f.toFunc.part c, g.toFunc.part c, r.toFunc.part c]
      (basePart c base)
      (Query.part c (.groupedMapReduce q f g r base)) := by
  intro env t h
  obtain ⟨source, hsource, h⟩ := gives_bind h
  obtain ⟨tf, hf, h⟩ := gives_bind h
  obtain ⟨tg, hg, h⟩ := gives_bind h
  obtain ⟨tr, hr, h⟩ := gives_bind h
  obtain ⟨b, hb, h⟩ := gives_bind h
  obtain ⟨optargs, ht, hbase⟩ :=
    base_gives (gives_ofExcept hb) (gives_pure h)
  exact ⟨_, _, ht, .cons hsource (.cons (rowFunc_gives hf)
    (.cons (rowFunc_gives hg) (.cons (pairFunc_gives hr) .nil))), hbase⟩

theorem assembled_join (kind : JoinKind) (a b : Query) (f : PairFunc) :
    Assembled kind.kind [a.part c, b.part c, f.toFunc.part c] []
      (Query.part c (.join kind a b f)) := by
  intro env t h
  obtain ⟨ta, ha, h⟩ := gives_bind h
  obtain ⟨tb, hb, h⟩ := gives_bind h
  obtain ⟨tf, hf, h⟩ := gives_bind h
  cases gives_pure h
  exact ⟨_, _, rfl,
    .cons ha (.cons hb (.cons (pairFunc_gives hf) .nil)), .nil⟩

theorem assembled_eqJoin (a : Query) (member : RowFunc) (b : Query)
    (index : Option String) :
    Assembled .eqJoin
      [a.part c, .result (member.judgeMember .eqJoin), b.part c]
      (constParts (index.toList.map fun s => ("index", .text s)))
      (Query.part c (.eqJoin a member b index)) := by
  intro env t h
  obtain ⟨ta, ha, h⟩ := gives_bind h
  obtain ⟨name, hname, h⟩ := gives_bind h
  obtain ⟨tb, hb, h⟩ := gives_bind h
  cases gives_pure h
  refine ⟨[ta, name, tb], index.toList.map fun s => ("index", .text s), ?_,
    .cons ha (.cons hname (.cons hb .nil)), constParts_give _⟩
  cases index <;> rfl

end ChainQuery

import ChainQuery.Draft.Term
import ChainQuery.Generate
import ChainQuery.Query.Order

/-! # Sessions — many steps on one context

    A session keeps one generation context, one supply of parameters and
    everything stored under names from request to request.  A request
    that fails stores nothing; the numbers it has used stay used, and the
    scope is as it was. -/

namespace ChainQuery

open Draft (Capture Refusal Shelf Supply)

/-- The state between requests. -/
structure Session where
  /-- The converter of the shared context. -/
  converter : Converter
  context : Context
  supply : Supply
  shelf : Shelf
  specs : List (String × OrderSpec)
  terms : List (String × Term)

namespace Session

/-- A session in which nothing has happened. -/
def start (c : Converter) : Session :=
  ⟨c, .fresh, .fresh, .empty, [], []⟩

/-- What can be asked of a session.  `store` is the name to keep the
    result under, if any. -/
inductive Request where
  /-- Make a parameter. -/
  | param (store : Option String)
  | expr (e : Draft.Expr) (store : Option String)
  | func (f : Draft.Func) (store : Option String)
  /-- Take the body of a function as an expression. -/
  | body (f : Draft.Func) (store : Option String)
  | query (q : Draft.Query) (store : Option String)
  | inspect (q : Draft.Query)
  /-- Generate a term in a walk of its own. -/
  | generate (q : Draft.Query) (c : Converter) (store : Option String)
  /-- Walk a query in the shared context. -/
  | build (q : Draft.Query) (store : Option String)
  /-- Walk a function in the shared context. -/
  | funcTerm (f : Draft.Func) (store : Option String)
  /-- Walk an expression in the shared context. -/
  | exprTerm (e : Draft.Expr) (store : Option String)
  /-- Convert a literal in the shared context. -/
  | literal (v : Value) (store : Option String)
  /-- Ask the shared converter about the kind of a value. -/
  | supports (v : Value)
  /-- Start a sort order, or add a key to the one stored as `base`. -/
  | spec (f : Draft.Func) (direction : Direction) (base : Option String)
      (store : Option String)
  | showSpec (name : String)
  | term (t : Draft.Term) (store : Option String)
  | sameExprs (a b : Draft.Expr)
  | sameFuncs (a b : Draft.Func)
  | sameValues (a b : Value)
  | sameTerms (a b : Draft.Term)
  | sameSpecs (a b : String)

/-- What a session answers. -/
inductive Reply where
  | refused (e : Refusal)
  | failed (e : TermError)
  | done
  | param (p : Param)
  | func (f : Func)
  | shape (s : Shape)
  | detail (d : Option Detail)
  /-- A query and how its generation went. -/
  | generated (q : Query) (o : Outcome Term)
  | term (t : Term)
  | supports (yes : Bool)
  | spec (s : OrderSpec)
  | equal (yes : Bool)

/-- A reply, the questions the shared converter was asked, and the state
    afterwards. -/
structure Turn where
  reply : Reply
  questions : List Question
  next : Session

/-- A turn that asks the converter nothing. -/
def quiet (s : Session) (r : Reply) : Turn :=
  ⟨r, [], s⟩

/-! ## Storing -/

/-- Put something under a name, when there is a name. -/
def keep {α : Type} (store : Option String) (a : α)
    (things : List (String × α)) : List (String × α) :=
  match store with
  | some name => (name, a) :: things
  | none => things

/-- Store an expression. -/
def keepExpr (s : Session) (store : Option String) (e : Expr) : Session :=
  { s with shelf := { s.shelf with exprs := keep store e s.shelf.exprs } }

/-- Store a function. -/
def keepFunc (s : Session) (store : Option String) (f : Func) : Session :=
  { s with shelf := { s.shelf with funcs := keep store f s.shelf.funcs } }

/-- Store a query. -/
def keepQuery (s : Session) (store : Option String) (q : Query) :
    Session :=
  { s with
    shelf := { s.shelf with queries := keep store q s.shelf.queries } }

/-- Store a sort order. -/
def keepSpec (s : Session) (store : Option String) (spec : OrderSpec) :
    Session :=
  { s with specs := keep store spec s.specs }

/-- Store a term. -/
def keepTerm (s : Session) (store : Option String) (t : Term) : Session :=
  { s with terms := keep store t s.terms }

/-! ## Turns -/

/-- Capture a draft and go on with it; a refusal is the answer. -/
def capturing {α : Type} (s : Session) (draft : Capture α)
    (go : α → Session → Turn) : Turn :=
  match draft ⟨[], s.shelf⟩ s.supply with
  | (.ok a, supply) => go a { s with supply := supply }
  | (.error e, supply) => quiet { s with supply := supply } (.refused e)

/-- Walk in the shared context and store the term. -/
def walking (s : Session) (walk : Walk Term) (store : Option String) :
    Turn :=
  let o := walk s.context
  let s := { s with context := o.context }
  match o.result with
  | .ok t => ⟨.term t, Note.questions o.notes, s.keepTerm store t⟩
  | .error e => ⟨.failed e, Note.questions o.notes, s⟩

/-- Read a written term and go on with it. -/
def reading (s : Session) (t : Draft.Term) (go : Term → Turn) : Turn :=
  match t.read s.terms with
  | .ok t => go t
  | .error e => s.quiet (.refused e)

/-- Answer a request. -/
def step (s : Session) : Request → Turn
  | .param none => s.capturing Capture.makeUnnamed fun p s =>
      s.quiet (.param p)
  | .param (some name) => s.capturing (Capture.make name) fun p s =>
      s.quiet (.param p)
  | .expr e store => s.capturing e.capture fun e s =>
      (s.keepExpr store e).quiet .done
  | .func f store => s.capturing f.capture fun f s =>
      (s.keepFunc store f).quiet (.func f)
  | .body f store => s.capturing f.capture fun f s =>
      (s.keepExpr store f.body).quiet .done
  | .query q store => s.capturing q.capture fun q s =>
      (s.keepQuery store q).quiet (.shape q.shape)
  | .inspect q => s.capturing q.capture fun q s =>
      s.quiet (.detail q.detail?)
  | .generate q c store => s.capturing q.capture fun q s =>
      let o := q.generate c
      let next := match o.result with
        | .ok t => s.keepTerm store t
        | .error _ => s
      next.quiet (.generated q o)
  | .build q store => s.capturing q.capture fun q s =>
      s.walking (q.walk s.converter) store
  | .funcTerm f store => s.capturing f.capture fun f s =>
      s.walking (f.walk s.converter) store
  | .exprTerm e store => s.capturing e.capture fun e s =>
      s.walking (e.walk s.converter) store
  | .literal v store => s.walking (s.converter.literal v) store
  | .supports v =>
      ⟨.supports (s.converter.supports v.kind), [.supports v.kind], s⟩
  | .spec f direction base store => s.capturing f.capture fun f s =>
      let key : OrderKey := ⟨f, direction⟩
      match base with
      | none => (s.keepSpec store (.single key)).quiet (.spec (.single key))
      | some name =>
          match s.specs.lookup name with
          | none => s.quiet (.refused (.missing name))
          | some spec =>
              let longer := spec.appended key
              (s.keepSpec store longer).quiet (.spec longer)
  | .showSpec name =>
      match s.specs.lookup name with
      | some spec => s.quiet (.spec spec)
      | none => s.quiet (.refused (.missing name))
  | .term t store => s.reading t fun t =>
      (s.keepTerm store t).quiet (.term t)
  | .sameExprs a b => s.capturing a.capture fun a s =>
      s.capturing b.capture fun b s => s.quiet (.equal (a.same b))
  | .sameFuncs a b => s.capturing a.capture fun a s =>
      s.capturing b.capture fun b s => s.quiet (.equal (a.same b))
  | .sameValues a b => s.quiet (.equal (a.same b))
  | .sameTerms a b => s.reading a fun a => s.reading b fun b =>
      s.quiet (.equal (a.same b))
  | .sameSpecs a b =>
      match s.specs.lookup a, s.specs.lookup b with
      | none, _ => s.quiet (.refused (.missing "a"))
      | _, none => s.quiet (.refused (.missing "b"))
      | some a, some b => s.quiet (.equal (a.same b))

/-- Answer requests in order. -/
def run (s : Session) : List Request → List Turn
  | [] => []
  | r :: rest =>
      let turn := s.step r
      turn :: run turn.next rest

end Session

end ChainQuery

import ChainQuery.Term
import ChainQuery.TermError

/-! # Walks — generation steps over a scope

    A walk turns part of a chain into a result while it hands out
    variable numbers, keeps the parameters in scope and notes what can be
    observed from outside: the questions put to the converter and the
    events reported.  The context and the notes come back with every
    outcome, a failed one too, so "nothing leaks on failure" is a
    statement about plain data.

    Notes only ever accumulate: the record of a sequence is the record of
    its first part followed by that of its second. -/

namespace ChainQuery

/-! ## Parameters in scope -/

/-- The next variable number and the bindings in scope, innermost
    first. -/
structure Context where
  next : Nat
  scope : List (Param × Nat)
  deriving DecidableEq, Repr

namespace Context

/-- The start of a walk of its own. -/
def fresh : Context := ⟨1, []⟩

/-- Give a parameter the next variable number. -/
def bindParam (ctx : Context) (p : Param) : Context :=
  ⟨ctx.next + 1, (p, ctx.next) :: ctx.scope⟩

/-- Bring parameters into scope, first to last. -/
def enter (ctx : Context) (params : List Param) : Context :=
  params.foldl bindParam ctx

/-- The numbers that entering would give to `count` parameters. -/
def numbers (ctx : Context) (count : Nat) : List Nat :=
  List.range' ctx.next count

/-- Drop the innermost bindings; the numbers stay used. -/
def leave (ctx : Context) (count : Nat) : Context :=
  ⟨ctx.next, ctx.scope.drop count⟩

/-- The variable a parameter is bound to, innermost binding first. -/
def resolve? (ctx : Context) (p : Param) : Option Nat :=
  ctx.scope.lookup p

end Context

/-! ## What can be observed -/

/-- A question put to the converter about a value of some kind. -/
inductive Question where
  | supports (kind : Value.Kind)
  | convert (kind : Value.Kind)
  deriving DecidableEq, Repr

/-- A question in words. -/
def Question.text : Question → String
  | .supports kind => s!"supports {kind.label}"
  | .convert kind => s!"convert {kind.label}"

/-- Something reported while a term is generated. -/
inductive Event where
  /-- A query node was built with so many positional arguments. -/
  | built (kind : Term.Kind) (args : Nat)
  /-- An expression has no term. -/
  | expressionFailed (e : TermError)
  /-- A selector does not name a member. -/
  | selectorFailed (e : TermError)
  /-- Generation ended with a term of so many nodes. -/
  | generated (kind : Term.Kind) (nodes : Nat)
  /-- Generation ended with an error. -/
  | failed (e : TermError)
  deriving DecidableEq, Repr

namespace Event

/-- How important an event is. -/
inductive Level where
  | trace | debug
  deriving DecidableEq, Repr

/-- Single nodes are traced, the rest is for debugging. -/
def level : Event → Level
  | .built _ _ => .trace
  | _ => .debug

/-- The word for a level. -/
def Level.label : Level → String
  | .trace => "trace"
  | .debug => "debug"

/-- An event in words. -/
def message : Event → String
  | .built _ _ => "generated term node"
  | .expressionFailed _ => "expression translation failed"
  | .selectorFailed _ => "selector translation failed"
  | .generated _ _ => "term generated"
  | .failed _ => "term generation failed"

end Event

/-- One entry of the record of a walk. -/
inductive Note where
  | asked (q : Question)
  | reported (e : Event)
  deriving DecidableEq, Repr

/-- The questions in a record, in order. -/
def Note.questions (notes : List Note) : List Question :=
  notes.filterMap fun
    | .asked q => some q
    | .reported _ => none

/-- The events in a record, in order. -/
def Note.events (notes : List Note) : List Event :=
  notes.filterMap fun
    | .asked _ => none
    | .reported e => some e

/-! ## Walks -/

/-- The end of a walk: its result, the context it leaves behind and its
    record. -/
structure Outcome (α : Type) where
  result : Except TermError α
  context : Context
  notes : List Note

/-- A step of generation. -/
def Walk (α : Type) : Type :=
  Context → Outcome α

namespace Walk

variable {α β : Type}

/-- Give a result and do nothing. -/
def done (a : α) : Walk α :=
  fun ctx => ⟨.ok a, ctx, []⟩

/-- One walk after another; a failure ends the sequence. -/
def andThen (x : Walk α) (f : α → Walk β) : Walk β := fun ctx =>
  match x ctx with
  | ⟨.ok a, middle, notes⟩ =>
      let rest := f a middle
      ⟨rest.result, rest.context, notes ++ rest.notes⟩
  | ⟨.error e, middle, notes⟩ => ⟨.error e, middle, notes⟩

instance : Monad Walk where
  pure := done
  bind := andThen

/-- End with an error. -/
def fail (e : TermError) : Walk α :=
  fun ctx => ⟨.error e, ctx, []⟩

/-- Lift a result that needs no context. -/
def ofExcept (r : Except TermError α) : Walk α :=
  fun ctx => ⟨r, ctx, []⟩

/-- Add an entry to the record. -/
def write (n : Note) : Walk Unit :=
  fun ctx => ⟨.ok (), ctx, [n]⟩

/-- Report an event. -/
def report (e : Event) : Walk Unit :=
  write (.reported e)

/-- Report that an expression has no term, and end. -/
def unsupported (u : Unsupported) : Walk α := do
  report (.expressionFailed (.unsupported u))
  fail (.unsupported u)

/-- Report that a selector is not a member, and end. -/
def notMember (use : SelectorUse) (found : Expr.Form) : Walk α := do
  report (.selectorFailed (.unsupported (.notMember use found)))
  fail (.unsupported (.notMember use found))

/-- Build a query node and report it. -/
def node (kind : Term.Kind) (args : List Term) : Walk Term := do
  report (.built kind args.length)
  return .node kind args

/-- The variable a parameter stands for. -/
def variableOf (p : Param) : Walk Nat := fun ctx =>
  match ctx.resolve? p with
  | some id => done id ctx
  | none => unsupported (.freeParam p) ctx

/-- Walk the body of a function with its parameters in scope.  They leave
    the scope again whether the body succeeds or fails; the result is
    paired with their variable numbers. -/
def withParams (params : List Param) (body : Walk α) :
    Walk (List Nat × α) := fun ctx =>
  let inner := body (ctx.enter params)
  ⟨inner.result.map fun a => (ctx.numbers params.length, a),
   inner.context.leave params.length,
   inner.notes⟩

end Walk

end ChainQuery

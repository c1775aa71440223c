import ChainQuery.Proofs.Scoping

/-! # Runs — jobs done on one context

    A context can be used for one piece of generation after another:
    chains, functions, expressions and literals in any order.  Each finds
    the context as the one before it left it, whether that one succeeded
    or not.  A job follows its translation (`follows_job`), so it leaves
    the scope it found; on a fresh context nothing is ever in scope
    between jobs. -/

namespace ChainQuery

/-! ## Jobs and turns -/

/-- A piece of generation. -/
inductive Job where
  | query (q : Query)
  | func (f : Func)
  | expr (e : Expr)
  | literal (v : Value)

/-- The walk of a job. -/
def Job.walk (c : Converter) : Job → Walk Term
  | .query q => q.walk c
  | .func f => f.walk c
  | .expr e => e.walk c
  | .literal v => c.literal v

/-- The translation of a job. -/
def Job.translate (c : Converter) (env : Environment) :
    Job → Translation Term
  | .query q => q.translate c env
  | .func f => f.translate c env
  | .expr e => e.translate c env
  | .literal v => .ofExcept (c.judge v)

/-- One job done: the context it found and how it ended. -/
structure Turn where
  before : Context
  outcome : Outcome Term

/-- Do jobs in order, each in the context the one before left behind. -/
def turns (c : Converter) (ctx : Context) : List Job → List Turn
  | [] => []
  | job :: jobs =>
      let o := job.walk c ctx
      ⟨ctx, o⟩ :: turns c o.context jobs

/-- The context in which jobs leave the one they began with. -/
def contextAfter (c : Converter) (ctx : Context) : List Job → Context
  | [] => ctx
  | job :: jobs => contextAfter c (job.walk c ctx).context jobs

/-- The terms that jobs gave, in order. -/
def returned (c : Converter) (ctx : Context) (jobs : List Job) :
    List Term :=
  (turns c ctx jobs).filterMap (·.outcome.result.toOption)

/-! ## Jobs as translations -/

/-- Every job follows its translation. -/
theorem follows_job (c : Converter) (job : Job)
    (scope : List (Param × Nat)) :
    Walk.Follows scope (job.walk c) (job.translate c (.ofScope scope)) := by
  cases job with
  | query q => exact (lexical_hereditary c).query q scope
  | func f => exact follows_func ((lexical_hereditary c).expr f.body)
  | expr e => exact (lexical_hereditary c).expr e scope
  | literal v => exact follows_literal c v

end ChainQuery

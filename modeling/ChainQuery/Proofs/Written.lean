import ChainQuery.Proofs.Drafts
import ChainQuery.Proofs.Layout

/-! # Written — the layout of a draft

    A draft has a layout before any parameter is made: its functions stand
    where the functions of the captured chain will stand, and a name means
    the innermost function around it that declares the name.  Things
    stored earlier come with their own layouts, and nothing in them can
    mean a function around the place they are put.  The route:

    * layouts of drafts are put together by the same operations as those
      of chains (`Action.parts`, `Query.layout`);
    * `Reads` says that a captured layout is a written one with
      every name read as a parameter; each operation keeps it, functions
      by way of what names mean inside them (`position_of_means`). -/

namespace ChainQuery.Draft

open ChainQuery.Layout

/-! ## Layouts of drafts -/

/-- What is used in a draft: a name, which a function around may declare,
    or something that no function around declares: a parameter in
    something stored, or one that is made on the spot. -/
inductive Argument where
  | named (name : String)
  | made (p : Param)
  | fresh
  deriving DecidableEq, Repr

/-- The layout of something stored.  What it uses from outside it was made
    elsewhere, so it means no function around the place it is put. -/
def shelved (l : Layout Param) : Layout Argument where
  count := l.count
  chains := []
  functions := l.functions.map fun s =>
    ⟨s.path, s.before, s.item.map .made⟩
  uses := l.uses.map fun u => ⟨u.path, .made u.name, u.binder⟩
  within := by
    refine List.forall_mem_map.mpr fun s hs => ?_
    rw [List.length_map]
    exact l.within s hs
  apart := by
    refine List.pairwise_map.mpr (l.apart.imp fun {s s'} hle => ?_)
    rw [List.length_map]
    exact hle
  declared := by
    refine List.forall_mem_map.mpr fun u hu k i hbinder => ?_
    obtain ⟨s, hs, hprefix, hname⟩ := l.declared u hu k i hbinder
    refine ⟨⟨s.path, s.before, s.item.map .made⟩, ?_, hprefix, ?_⟩
    · rw [List.getElem?_map, hs]
      rfl
    · rw [List.getElem?_map, hname]
      rfl

/-- Whether a function selects one member of its own row. -/
def RowFunc.isMember : RowFunc → Bool
  | .mk row (.field (.named x) _) => x == row
  | _ => false

/-- The layout of a sort key, given that of its function. -/
def RowFunc.keyLayout (key : RowFunc) (l : Layout Argument) :
    Layout Argument :=
  if key.isMember then empty else args 0 [l]

/-- The layouts of the arguments of the chain a draft starts from. -/
def Start.parts (shelf : Shelf) : Start → List (Layout Argument)
  | .root _ => []
  | .stored name =>
      match shelf.queries.lookup name with
      | some q => q.parts.map shelved
      | none => []

mutual

/-- The layout of a written expression. -/
def Expr.layout (shelf : Shelf) : Expr → Layout Argument
  | .named name => use (.named name)
  | .fresh => use .fresh
  | .stored name =>
      match shelf.exprs.lookup name with
      | some e => shelved e.layout
      | none => empty
  | .literal _ => empty
  | .field target _ => args 0 [Expr.layout shelf target]
  | .compare _ left right =>
      args 0 [Expr.layout shelf left, Expr.layout shelf right]
  | .arith _ left right =>
      args 0 [Expr.layout shelf left, Expr.layout shelf right]
  | .all items => args 0 (itemLayouts shelf items)
  | .any items => args 0 (itemLayouts shelf items)
  | .not e => args 0 [Expr.layout shelf e]
  | .array items => args 0 (itemLayouts shelf items)
  | .object ms => members (memberLayouts shelf ms)
  | .call _ items => args 0 (itemLayouts shelf items)
  | .subquery q => args 0 (Query.parts shelf q)
termination_by structural e => e

/-- The layouts of written expressions. -/
def itemLayouts (shelf : Shelf) : List Expr → List (Layout Argument)
  | [] => []
  | e :: es => Expr.layout shelf e :: itemLayouts shelf es
termination_by structural es => es

/-- The layouts of written members. -/
def memberLayouts (shelf : Shelf) :
    List (String × Expr) → List (String × Layout Argument)
  | [] => []
  | (name, e) :: rest =>
      (name, Expr.layout shelf e) :: memberLayouts shelf rest
termination_by structural ms => ms

/-- The layout of a written function of one row. -/
def RowFunc.layout (shelf : Shelf) : RowFunc → Layout Argument
  | .mk row body =>
      function [.named row] (Expr.layout shelf body)
termination_by structural f => f

/-- The layout of a written function of two rows. -/
def PairFunc.layout (shelf : Shelf) : PairFunc → Layout Argument
  | .mk left right body =>
      function [.named left, .named right] (Expr.layout shelf body)
termination_by structural f => f

/-- The layouts of the arguments after a step, given those before it.
    Members that reductions and equality joins select are read and no
    functions in the term. -/
def Action.parts (shelf : Shelf) (before : List (Layout Argument)) :
    Action → List (Layout Argument)
  | .onDatabase _ => []
  | .onTable _ => []
  | .modify _ => before
  | .plain _ => [args 0 before]
  | .indexCreateWith _ key => [empty, empty, RowFunc.layout shelf key]
  | .rowStep _ f => [args 0 before, RowFunc.layout shelf f]
  | .orderBy key _ =>
      [args 0 before, key.keyLayout (RowFunc.layout shelf key)]
  | .thenBy key _ =>
      before ++ [key.keyLayout (RowFunc.layout shelf key)]
  | .union other => [args 0 before, args 0 (Query.parts shelf other)]
  | .reduce f => [args 0 before, PairFunc.layout shelf f]
  | .groupBy _ key => [args 0 before, RowFunc.layout shelf key]
  | .groupedMapReduce grouping mapping reduction =>
      [args 0 before, RowFunc.layout shelf grouping,
        RowFunc.layout shelf mapping, PairFunc.layout shelf reduction]
  | .join _ other predicate =>
      [args 0 before, args 0 (Query.parts shelf other),
        PairFunc.layout shelf predicate]
  | .eqJoin _ other =>
      [args 0 before, empty, args 0 (Query.parts shelf other)]
termination_by structural a => a

/-- The layouts of the arguments after a written step. -/
def Written.parts (shelf : Shelf) (before : List (Layout Argument)) :
    Written → List (Layout Argument)
  | .mk _ action => Action.parts shelf before action
termination_by structural w => w

/-- The layouts of the arguments after written steps. -/
def stepParts (shelf : Shelf) :
    List (Layout Argument) → List Written → List (Layout Argument)
  | before, [] => before
  | before, w :: rest =>
      stepParts shelf (Written.parts shelf before w) rest
termination_by structural _ steps => steps

/-- The layouts of the arguments of a written chain. -/
def Query.parts (shelf : Shelf) : Query → List (Layout Argument)
  | .mk start steps => stepParts shelf (start.parts shelf) steps
termination_by structural q => q

end

/-- The layout of a written chain. -/
def Query.layout (shelf : Shelf) (q : Query) : Layout Argument :=
  args 0 (q.parts shelf)

/-! ## What names mean -/

variable {bound : List (String × Param)} {a : Argument} {p q : Param}
  {names : List String} {params : List Param}

/-- The parameter that is bound to an argument, if any. -/
def Argument.resolve? (bound : List (String × Param)) :
    Argument → Option Param
  | .named x => bound.lookup x
  | .made _ => none
  | .fresh => none

/-- What an argument means where names are bound: what is bound to it, or
    a parameter that is not bound at all. -/
def Argument.Means (bound : List (String × Param)) (a : Argument)
    (p : Param) : Prop :=
  a.resolve? bound = some p ∨
    a.resolve? bound = none ∧ ∀ b ∈ bound, b.2 ≠ p

/-- One name further out. -/
theorem means_cons {x : String}
    (h : a.Means ((x, q) :: bound) p) (hq : ∀ b ∈ bound, b.2 ≠ q) :
    (a = .named x ↔ q = p) ∧ (a ≠ .named x → a.Means bound p) := by
  cases a with
  | made _ | fresh =>
      rcases h with h | ⟨-, h⟩
      · cases h
      · obtain ⟨hqp, hrest⟩ := List.forall_mem_cons.mp h
        refine ⟨⟨fun heq => ?_, fun heq => (hqp heq).elim⟩,
          fun _ => .inr ⟨rfl, hrest⟩⟩
        cases heq
  | named y =>
      by_cases hy : y = x
      · subst hy
        have hresolve : (Argument.named y).resolve? ((y, q) :: bound)
            = some q := by
          simp [Argument.resolve?]
        rw [Argument.Means, hresolve] at h
        refine ⟨⟨fun _ => ?_, fun _ => rfl⟩, fun hne => (hne rfl).elim⟩
        rcases h with h | ⟨h, -⟩
        · exact Option.some.inj h
        · cases h
      · have hresolve : (Argument.named y).resolve? ((x, q) :: bound)
            = bound.lookup y := by
          simp [Argument.resolve?, List.lookup_cons, beq_false_of_ne hy]
        have hne : Argument.named y ≠ .named x :=
          fun heq => hy (Argument.named.inj heq)
        rw [Argument.Means, hresolve] at h
        rcases h with h | ⟨hnone, h⟩
        · obtain ⟨before, after, hbound, -⟩ := List.lookup_eq_some_iff.mp h
          have hmem : (y, p) ∈ bound := by
            rw [hbound]
            exact List.mem_append_right _ (.head _)
          exact ⟨⟨fun heq => (hne heq).elim,
            fun heq => (hq _ hmem heq.symm).elim⟩, fun _ => .inl h⟩
        · obtain ⟨hqp, hrest⟩ := List.forall_mem_cons.mp h
          exact ⟨⟨fun heq => (hne heq).elim, fun heq => (hqp heq).elim⟩,
            fun _ => .inr ⟨hnone, hrest⟩⟩

/-- Inside a function, an argument has the position among its names that
    what it means has among its parameters; and one that has none means
    what it means outside. -/
theorem position_of_means (hlength : names.length = params.length)
    (hdistinct :
      (((names.zip params).reverse ++ bound).map Prod.snd).Nodup)
    (h : a.Means ((names.zip params).reverse ++ bound) p) :
    position? a (names.map .named) = position? p params ∧
      (position? a (names.map .named) = none → a.Means bound p) := by
  induction names generalizing params bound with
  | nil =>
      obtain rfl := List.eq_nil_of_length_eq_zero hlength.symm
      exact ⟨rfl, fun _ => h⟩
  | cons x xs ih =>
      obtain ⟨q, qs, rfl⟩ := List.exists_cons_of_length_eq_add_one
        hlength.symm
      have hshift : ((x :: xs).zip (q :: qs)).reverse ++ bound
          = (xs.zip qs).reverse ++ (x, q) :: bound := by
        rw [List.zip_cons_cons, List.reverse_cons, List.append_assoc]
        rfl
      rw [hshift] at hdistinct h
      obtain ⟨hposition, hout⟩ := ih (Nat.succ.inj hlength) hdistinct h
      rw [List.map_cons, position?, position?, ← hposition]
      cases hxs : position? a (xs.map .named) with
      | some i =>
          refine ⟨rfl, ?_⟩
          intro hnone
          cases hnone
      | none =>
          have hq : ∀ b ∈ bound, b.2 ≠ q := by
            rw [List.map_append, List.map_cons] at hdistinct
            have hnodup := (List.nodup_append.mp hdistinct).2.1
            intro b hb heq
            refine (List.nodup_cons.mp hnodup).1 ?_
            exact List.mem_map.mpr ⟨b, hb, heq⟩
          obtain ⟨hiff, hmeans⟩ := means_cons (hout hxs) hq
          by_cases ha : a = .named x
          · simp only [if_pos ha.symm, if_pos (hiff.mp ha), true_and]
            intro hnone
            cases hnone
          · simp only [if_neg (Ne.symm ha), if_neg (mt hiff.mpr ha),
              true_and]
            exact fun _ => hmeans ha

/-! ## Layouts read as parameters -/

variable {next : Nat} {l l' : Layout Argument} {m m' : Layout Param}
  {ls : List (Layout Argument)} {ms : List (Layout Param)}

/-- A use of a name read as a parameter made before `next`. -/
structure UseReads (bound : List (String × Param)) (next : Nat)
    (u : Use Argument) (v : Use Param) : Prop extends Use.Matches u v where
  means : u.binder = none →
    u.name.Means bound v.name ∧ v.name.number < next

/-- A written layout read with names bound: its functions have as many
    parameters, and its uses are those of what the names mean. -/
structure Reads (bound : List (String × Param)) (next : Nat)
    (l : Layout Argument) (m : Layout Param) : Prop where
  count : l.count = m.count
  functions : List.Forall₂ Spot.Matches l.functions m.functions
  uses : List.Forall₂ (UseReads bound next) l.uses m.uses

/-- What is read differs in names only. -/
theorem matches_of_reads (h : Reads bound next l m) : l.Matches m :=
  ⟨h.count, h.functions, h.uses.imp fun _ _ hu => hu.toMatches⟩

theorem reads_empty : Reads bound next empty empty :=
  ⟨rfl, .nil, .nil⟩

theorem reads_use (h : a.Means bound p) (hp : p.number < next) :
    Reads bound next (use a) (use p) :=
  ⟨rfl, .nil, .cons ⟨⟨rfl, rfl⟩, fun _ => ⟨h, hp⟩⟩ .nil⟩

theorem reads_under (e : Term.Edge) (h : Reads bound next l m) :
    Reads bound next (l.under e) (m.under e) where
  count := h.count
  functions := by
    refine List.rel_map (fun s s' hs => ?_) h.functions
    exact ⟨congrArg (e :: ·) hs.path, hs.before, hs.length⟩
  uses := by
    refine List.rel_map (fun u v hu => ?_) h.uses
    exact ⟨⟨congrArg (e :: ·) hu.path, hu.binder⟩, hu.means⟩

theorem reads_next (h : Reads bound next l m)
    (h' : Reads bound next l' m') :
    Reads bound next (l.next l') (m.next m') where
  count := congrArg₂ (· + ·) h.count h'.count
  functions := by
    refine List.rel_append h.functions
      (List.rel_map (fun s s' hs => ?_) h'.functions)
    exact ⟨hs.path, congrArg₂ (· + ·) h.count hs.before, hs.length⟩
  uses := by
    refine List.rel_append h.uses (List.rel_map (fun u v hu => ?_) h'.uses)
    refine ⟨⟨hu.path, ?_⟩, fun hnone => ?_⟩
    · show u.binder.map _ = v.binder.map _
      rw [hu.binder, h.functions.length_eq]
    · exact hu.means (Option.map_eq_none_iff.mp hnone)

theorem reads_args (h : List.Forall₂ (Reads bound next) ls ms) (i : Nat) :
    Reads bound next (args i ls) (args i ms) := by
  induction h generalizing i with
  | nil => exact reads_empty
  | cons hl _ ih => exact reads_next (reads_under (.arg i) hl) (ih (i + 1))

/-- Members one by one, under the same names. -/
theorem reads_members {ls : List (String × Layout Argument)}
    {ms : List (String × Layout Param)}
    (h : List.Forall₂ (fun l m => l.1 = m.1 ∧ Reads bound next l.2 m.2)
      ls ms) : Reads bound next (members ls) (members ms) := by
  induction h with
  | nil => exact reads_empty
  | @cons l m ls ms hl _ ih =>
      obtain ⟨name, l⟩ := l
      obtain ⟨name', m⟩ := m
      obtain ⟨hname, hl⟩ := hl
      replace hname : name = name' := hname
      subst hname
      exact reads_next (reads_under (.named name) hl) ih

/-- A function, read with its names bound inside it. -/
theorem reads_function (hlength : names.length = params.length)
    (hdistinct :
      (((names.zip params).reverse ++ bound).map Prod.snd).Nodup)
    (h : Reads ((names.zip params).reverse ++ bound) next l m) :
    Reads bound next
      (function (names.map .named) l) (function params m) where
  count := by
    show (names.map _).length + l.count = params.length + m.count
    rw [List.length_map, hlength, h.count]
  functions := by
    have hcount : (names.map Argument.named).length = params.length :=
      (List.length_map _).trans hlength
    refine .cons ⟨rfl, rfl, hcount⟩
      (List.rel_map (fun s s' hs => ?_) h.functions)
    exact ⟨congrArg (Term.Edge.arg 1 :: ·) hs.path,
      congrArg₂ (· + ·) hcount hs.before, hs.length⟩
  uses := by
    refine List.rel_map (fun u v hu => ?_) h.uses
    have hpath : Term.Edge.arg 1 :: u.path = .arg 1 :: v.path :=
      congrArg (Term.Edge.arg 1 :: ·) hu.path
    rw [Use.enclosed, Use.enclosed, ← hu.binder]
    cases hinner : u.binder with
    | some b =>
        refine ⟨⟨hpath, rfl⟩, ?_⟩
        intro hnone
        cases hnone
    | none =>
        -- The function declares the use in both layouts or in neither.
        obtain ⟨hmeans, hlt⟩ := hu.means hinner
        obtain ⟨hposition, hout⟩ :=
          position_of_means hlength hdistinct hmeans
        refine ⟨⟨hpath, ?_⟩, fun hnone => ⟨?_, hlt⟩⟩
        · show (position? u.name (names.map .named)).map _
            = (position? v.name params).map _
          rw [hposition]
        · exact hout (Option.map_eq_none_iff.mp hnone)

theorem reads_ofChain (made : ChainQuery.Query)
    (h : Reads bound next l m) : Reads bound next l (ofChain made m) :=
  ⟨h.count, h.functions, h.uses⟩

/-- What is stored is read as itself where none of its parameters is
    bound. -/
theorem reads_shelved
    (hbound : ∀ p ∈ free m, ∀ b ∈ bound, b.2 ≠ p)
    (hnext : ∀ p ∈ free m, p.number < next) :
    Reads bound next (shelved m) m where
  count := rfl
  functions := by
    refine List.forall₂_map_left_iff.mpr (List.forall₂_same.mpr ?_)
    exact fun s _ => ⟨rfl, rfl, List.length_map _⟩
  uses := by
    refine List.forall₂_map_left_iff.mpr (List.forall₂_same.mpr ?_)
    intro u hu
    refine ⟨⟨rfl, rfl⟩, fun hnone => ?_⟩
    have hfree := mem_free.mpr ⟨u, hu, hnone, rfl⟩
    exact ⟨.inr ⟨rfl, hbound _ hfree⟩, hnext _ hfree⟩

end ChainQuery.Draft

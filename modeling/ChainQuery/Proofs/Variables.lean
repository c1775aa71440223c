import ChainQuery.Proofs.Nodes

/-! # Variables — what a term declares and refers to

    A function node lists the numbers of its variables, and a reference
    carries one number.  `Term.declared` collects the lists of all
    functions in a term, and `Term.Closed` asks of every reference that a
    function around it lists its number.  Only functions and references
    have to do with numbers; a term of any other kind says about them what
    its arguments say (`declared_decorated`, `closed_decorated`). -/

namespace ChainQuery

/-! ## Declared numbers and closed terms -/

namespace Term

/-- The numbers a function node lists, given its arguments. -/
def listed : List Term → List Binary64
  | .apply .makeArray ids _ :: _ =>
      ids.filterMap fun id => id.asDatum.bind Datum.asNumber
  | _ => []

mutual

/-- The numbers listed by the function nodes of a term. -/
def declared : Term → List Binary64
  | .datum _ => []
  | .apply kind args optargs =>
      (if kind = .func then listed args else []) ++
        (declaredArgs args ++ declaredNamed optargs)
termination_by structural t => t

/-- The numbers listed in arguments, in order. -/
def declaredArgs : List Term → List Binary64
  | [] => []
  | t :: ts => declared t ++ declaredArgs ts
termination_by structural ts => ts

/-- The numbers listed in named arguments, in order. -/
def declaredNamed : List (String × Term) → List Binary64
  | [] => []
  | (_, t) :: rest => declared t ++ declaredNamed rest
termination_by structural es => es

end

mutual

/-- Every variable reference carries a number that a function around it
    lists; `around` are those listed further out. -/
def Closed (around : List Binary64) : Term → Prop
  | .datum _ => True
  | .apply kind args optargs =>
      (kind = .var → ∃ x ∈ around, args = [.datum (.number x)]) ∧
      ArgsClosed (if kind = .func then listed args ++ around else around)
        args ∧
      NamedClosed (if kind = .func then listed args ++ around else around)
        optargs
termination_by structural t => t

/-- Every argument is closed. -/
def ArgsClosed (around : List Binary64) : List Term → Prop
  | [] => True
  | t :: ts => Closed around t ∧ ArgsClosed around ts
termination_by structural ts => ts

/-- Every named argument is closed. -/
def NamedClosed (around : List Binary64) : List (String × Term) → Prop
  | [] => True
  | (_, t) :: rest => Closed around t ∧ NamedClosed around rest
termination_by structural es => es

end

end Term

open Term

/-- Named arguments that are leaves declare nothing. -/
theorem declaredNamed_leaves {optargs : List (String × Term)}
    (h : ∀ o ∈ optargs, ∃ d, o.2 = .datum d) :
    declaredNamed optargs = [] := by
  induction optargs with
  | nil => rfl
  | cons o rest ih =>
      obtain ⟨name, t⟩ := o
      obtain ⟨⟨d, ht⟩, hrest⟩ := List.forall_mem_cons.mp h
      replace ht : t = .datum d := ht
      subst ht
      exact ih hrest

/-- Leaves are closed anywhere. -/
theorem namedClosed_leaves {optargs : List (String × Term)}
    {around : List Binary64} (h : ∀ o ∈ optargs, ∃ d, o.2 = .datum d) :
    NamedClosed around optargs := by
  induction optargs with
  | nil => exact trivial
  | cons o rest ih =>
      obtain ⟨name, t⟩ := o
      obtain ⟨⟨d, ht⟩, hrest⟩ := List.forall_mem_cons.mp h
      replace ht : t = .datum d := ht
      subst ht
      exact ⟨trivial, ih hrest⟩

theorem declaredNamed_eq (es : List (String × Term)) :
    declaredNamed es = es.flatMap fun e => e.2.declared := by
  induction es with
  | nil => rfl
  | cons e rest ih =>
      obtain ⟨name, t⟩ := e
      rw [declaredNamed, ih]
      rfl

theorem namedClosed_iff {around : List Binary64}
    {es : List (String × Term)} :
    NamedClosed around es ↔ ∀ e ∈ es, e.2.Closed around := by
  induction es with
  | nil => exact ⟨fun _ => List.forall_mem_nil _, fun _ => trivial⟩
  | cons e rest ih =>
      obtain ⟨name, t⟩ := e
      rw [NamedClosed, ih, List.forall_mem_cons]

/-- Moving named arguments moves what they declare. -/
theorem declaredNamed_perm {es fs : List (String × Term)}
    (h : es.Perm fs) : (declaredNamed es).Perm (declaredNamed fs) := by
  rw [declaredNamed_eq, declaredNamed_eq]
  exact h.flatMap_right _

/-- Named arguments are closed in any order. -/
theorem namedClosed_perm {es fs : List (String × Term)}
    {around : List Binary64} (h : es.Perm fs)
    (hfs : NamedClosed around fs) : NamedClosed around es := by
  rw [namedClosed_iff] at hfs ⊢
  intro e he
  exact hfs e (h.mem_iff.mp he)

/-! ## Ordinary nodes

    Only functions declare numbers and only references carry them; every
    other kind of node is ordinary, and says about numbers what its
    arguments say. -/

/-- A kind other than functions and variable references. -/
def Term.Kind.Ordinary (kind : Kind) : Prop :=
  kind ≠ .func ∧ kind ≠ .var

instance (kind : Kind) : Decidable kind.Ordinary :=
  inferInstanceAs (Decidable (kind ≠ .func ∧ kind ≠ .var))

theorem ordinary_compare (op : CompareOp) : op.kind.Ordinary := by
  cases op <;> decide

theorem ordinary_arith (op : ArithOp) : op.kind.Ordinary := by
  cases op <;> decide

theorem ordinary_direction (d : Direction) : d.kind.Ordinary := by
  cases d <;> decide

theorem ordinary_step (s : Step) : s.kind.Ordinary := by
  cases s <;> constructor <;> intro h <;> cases h

theorem ordinary_rowStep (s : RowStep) : s.kind.Ordinary := by
  cases s <;> constructor <;> intro h <;> cases h

theorem ordinary_join (kind : JoinKind) : kind.kind.Ordinary := by
  cases kind <;> decide

/-- No function of the remote engine binds or refers. -/
theorem ordinary_call {name : String} {given : Nat} {kind : Kind}
    (h : RemoteCall.judge name given = .ok kind) : kind.Ordinary := by
  have hall : ∀ r ∈ RemoteCall.all, r.kind.Ordinary := by decide
  obtain ⟨call, hmem, -, -, rfl⟩ := call_of_judge h
  exact hall call hmem

variable {kind : Kind} {args : List Term} {t : Term}

/-- An ordinary term declares what its arguments declare. -/
theorem declared_ordinary (hk : kind.Ordinary) (args : List Term)
    (optargs : List (String × Term)) :
    (Term.apply kind args optargs).declared
      = declaredArgs args ++ declaredNamed optargs := by
  rw [declared, if_neg hk.1]
  rfl

theorem declared_decorated (h : t.Decorated kind args)
    (hk : kind.Ordinary) : t.declared = declaredArgs args := by
  obtain ⟨optargs, rfl, hleaf⟩ := h
  rw [declared_ordinary hk, declaredNamed_leaves hleaf, List.append_nil]

/-- An ordinary term is closed when its arguments are. -/
theorem closed_decorated {around : List Binary64}
    (h : t.Decorated kind args) (hk : kind.Ordinary)
    (hargs : ArgsClosed around args) : t.Closed around := by
  obtain ⟨optargs, rfl, hleaf⟩ := h
  rw [Closed, if_neg hk.1]
  exact ⟨fun hv => absurd hv hk.2, hargs, namedClosed_leaves hleaf⟩

/-- A term in which nothing is declared or referred to. -/
def Term.Inert (t : Term) : Prop :=
  t.declared = [] ∧ ∀ around, t.Closed around

theorem inert_leaf (d : Datum) : (Term.datum d).Inert :=
  ⟨rfl, fun _ => trivial⟩

theorem inert_args (h : ∀ t ∈ args, t.Inert) :
    declaredArgs args = [] ∧ ∀ around, ArgsClosed around args := by
  induction args with
  | nil => exact ⟨rfl, fun _ => trivial⟩
  | cons t ts ih =>
      obtain ⟨ht, hts⟩ := List.forall_mem_cons.mp h
      obtain ⟨hnone, hclosed⟩ := ih hts
      refine ⟨?_, fun around => ⟨ht.2 around, hclosed around⟩⟩
      rw [declaredArgs, ht.1, hnone]
      rfl

theorem inert_decorated (h : t.Decorated kind args) (hk : kind.Ordinary)
    (hargs : ∀ t ∈ args, t.Inert) : t.Inert := by
  obtain ⟨hnone, hclosed⟩ := inert_args hargs
  refine ⟨?_, fun around => closed_decorated h hk (hclosed around)⟩
  rw [declared_decorated h hk, hnone]

theorem inert_text (s : String) : (Term.text s).Inert :=
  inert_leaf (.string s)

theorem inert_database (name : String) : (databaseTerm name).Inert :=
  inert_decorated (decorated_node .db _) (by decide)
    (List.forall_mem_singleton.mpr (inert_text name))

theorem inert_table (table : Table) : table.term.Inert := by
  refine inert_decorated
    (decorated_withFlag (decorated_node .table _) _ _) (by decide) ?_
  intro a ha
  rcases List.mem_append.mp ha with hdb | hname
  · obtain ⟨name, -, hname⟩ :=
      Option.map_eq_some_iff.mp (Option.mem_toList.mp hdb)
    rw [← hname]
    exact inert_database name
  · rw [List.mem_singleton.mp hname]
    exact inert_leaf _

theorem inert_judge {c : Converter} {v : Value} (h : c.judge v = .ok t) :
    t.Inert := by
  obtain ⟨d, -, rfl⟩ := judge_leaf h
  exact inert_leaf d

/-- Literals declare nothing and refer to nothing. -/
theorem inert_literals {c : Converter} {vs : List Value}
    (h : c.judgeAll vs = .ok args) : ∀ t ∈ args, t.Inert := by
  have hall := judgeAll_ok h
  clear h
  induction hall with
  | nil => exact List.forall_mem_nil _
  | cons hv _ ih => exact List.forall_mem_cons.mpr ⟨inert_judge hv, ih⟩

theorem inert_member {use : SelectorUse} {f : RowFunc}
    (h : f.judgeMember use = .ok t) : t.Inert := by
  obtain ⟨name, -, rfl⟩ := judgeMember_leaf h
  exact inert_text name

/-- A reduction object declares nothing and refers to nothing. -/
theorem inert_reduction {reduction : Reduction}
    (h : reduction.judge = .ok t) : t.Inert :=
  inert_decorated (decorated_reduction h) (by decide)
    (List.forall_mem_nil _)

/-- An ordinary node of leaves and tables is inert. -/
theorem inert_node (kind : Kind) (hk : kind.Ordinary)
    (h : ∀ a ∈ args, a.Inert) : (Term.node kind args).Inert :=
  inert_decorated (decorated_node kind args) hk h

/-- A root declares nothing and refers to nothing. -/
theorem inert_root {c : Converter} {r : Root} (h : r.judge c = .ok t) :
    t.Inert := by
  cases r with
  | db name =>
      cases h
      exact inert_node .db (by decide) (by simp [inert_text])
  | table t =>
      cases h
      exact inert_table t
  | dbCreate name =>
      cases h
      exact inert_node _ (by decide) (by simp [inert_text])
  | dbDrop name =>
      cases h
      exact inert_node _ (by decide) (by simp [inert_text])
  | dbList =>
      cases h
      exact inert_node _ (by decide) (by simp)
  | tableCreate db name =>
      cases h
      exact inert_node _ (by decide) (by simp [inert_text, inert_database])
  | tableDrop db name =>
      cases h
      exact inert_node _ (by decide) (by simp [inert_text, inert_database])
  | tableList db =>
      cases h
      exact inert_node _ (by decide) (by simp [inert_database])
  | indexCreate t name =>
      cases h
      exact inert_node _ (by decide) (by simp [inert_text, inert_table])
  | indexDrop t name =>
      cases h
      exact inert_node _ (by decide) (by simp [inert_text, inert_table])
  | indexList t =>
      cases h
      exact inert_node _ (by decide) (by simp [inert_table])
  | literal v => exact inert_judge h
  | literalSeq vs =>
      obtain ⟨items, hitems, hok⟩ := bind_eq_ok.mp h
      cases hok
      exact inert_node _ (by decide) (inert_literals hitems)
  | now =>
      cases h
      exact inert_node _ (by decide) (by simp)
  | insert table v upsert =>
      obtain ⟨value, hvalue, hok⟩ := bind_eq_ok.mp h
      cases hok
      refine inert_decorated (decorated_withFlag (decorated_node _ _) _ _)
        (by decide) ?_
      simp [inert_table, inert_judge hvalue]

end ChainQuery

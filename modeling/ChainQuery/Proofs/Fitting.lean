import ChainQuery.Proofs.Layout

/-! # Fitting — the layout of a chain fits its term

    Wherever numbering starts and whatever is declared outside, the term of
    a chain is what the layout of the chain says.  The route:

    * arguments that layouts fit, each numbered after those before it
      (`FitsArgs`), are fitted together (`fits_args`), and so is the node
      above them (`ends_decorated`); a function is fitted as its body is
      (`ends_function`);
    * `Translation.Lays` says that a layout fits whatever a translation
      gives, and every form of node passes it on (`laid_hereditary`). -/

namespace ChainQuery

open Term Translation Layout

variable {c : Converter} {env : Environment} {n m k : Nat} {kind : Kind}
  {t : Term} {ts : List Term} {named : List (String × Term)}
  {l : Layout Param} {ls : List (Layout Param)}

/-! ## Terms that layouts fit -/

/-- A layout fits a term whose variables are those from `n` up to but
    without `m`. -/
def Layout.Ends (c : Converter) (env : Environment) (n : Nat) (t : Term)
    (m : Nat) (l : Layout Param) : Prop :=
  m = n + l.count ∧ l.Fits c env n t.At

/-- What stands in arguments, counted from the `i`-th on. -/
def AtArgs (i : Nat) (ts : List Term) (path : Path) (s : Term) : Prop :=
  ∃ j u rest, ts[j]? = some u ∧ path = .arg (i + j) :: rest ∧ u.At rest s

/-- What stands in named arguments. -/
def AtNamed (named : List (String × Term)) (path : Path) (s : Term) :
    Prop :=
  ∃ name u rest, (name, u) ∈ named ∧ path = .named name :: rest ∧
    u.At rest s

/-- Layouts fit arguments one by one, each numbered after those before it;
    the arguments without a layout come last and are bare. -/
inductive FitsArgs (c : Converter) (env : Environment) :
    Nat → List Term → List (Layout Param) → Nat → Prop where
  | bare {n : Nat} {ts : List Term} :
      (∀ t ∈ ts, t.Bare) → FitsArgs c env n ts [] n
  | cons {n k m : Nat} {t : Term} {ts : List Term} {l : Layout Param}
      {ls : List (Layout Param)} :
      Layout.Ends c env n t k l → FitsArgs c env k ts ls m →
        FitsArgs c env n (t :: ts) (l :: ls) m

/-- Layouts fit named arguments, numbered in the order given. -/
inductive FitsNamed (c : Converter) (env : Environment) :
    Nat → List (String × Term) → List (String × Layout Param) → Nat →
      Prop where
  | nil {n : Nat} : FitsNamed c env n [] [] n
  | cons {n k m : Nat} {name : String} {t : Term}
      {named : List (String × Term)} {l : Layout Param}
      {ls : List (String × Layout Param)} :
      Layout.Ends c env n t k l → FitsNamed c env k named ls m →
        FitsNamed c env n ((name, t) :: named) ((name, l) :: ls) m

theorem fits_args (h : FitsArgs c env n ts ls m) (i : Nat) :
    m = n + (args i ls).count ∧
      (args i ls).Fits c env n (AtArgs i ts) := by
  induction h generalizing i with
  | bare hbare =>
      refine ⟨rfl, fits_empty ?_⟩
      rintro path s ⟨j, u, rest, hj, rfl, hat⟩
      exact hbare u (List.mem_of_getElem? hj) rest s hat
  | @cons n k m t ts l ls ht _ ih =>
      obtain ⟨rfl, ht⟩ := ht
      obtain ⟨hm, hts⟩ := ih (i + 1)
      refine ⟨?_, fits_of (fits_next (fits_under (.arg i) ht) hts) ?_ ?_⟩
      · rw [hm, Nat.add_assoc]
        rfl
      · rintro path s (⟨rest, rfl, hat⟩ | ⟨j, u, rest, hj, rfl, hat⟩)
        · exact ⟨0, t, rest, rfl, rfl, hat⟩
        · refine ⟨j + 1, u, rest, hj, ?_, hat⟩
          rw [Nat.add_right_comm, Nat.add_assoc]
      · rintro path s ⟨j, u, rest, hj, rfl, hat⟩ -
        cases j with
        | zero =>
            cases hj
            exact .inl ⟨rest, rfl, hat⟩
        | succ j =>
            refine .inr ⟨j, u, rest, hj, ?_, hat⟩
            rw [Nat.add_right_comm, Nat.add_assoc]

theorem fits_members {ls : List (String × Layout Param)}
    (h : FitsNamed c env n named ls m) :
    m = n + (members ls).count ∧
      (members ls).Fits c env n (AtNamed named) := by
  induction h with
  | nil =>
      refine ⟨rfl, fits_empty ?_⟩
      rintro path s ⟨name, u, rest, hmem, -⟩
      cases hmem
  | @cons n k m name t named l ls ht _ ih =>
      obtain ⟨rfl, ht⟩ := ht
      obtain ⟨hm, hrest⟩ := ih
      refine ⟨?_,
        fits_of (fits_next (fits_under (.named name) ht) hrest) ?_ ?_⟩
      · rw [hm, Nat.add_assoc]
        rfl
      · rintro path s (⟨rest, rfl, hat⟩ | ⟨other, u, rest, hmem, rfl, hat⟩)
        · exact ⟨name, t, rest, .head _, rfl, hat⟩
        · exact ⟨other, u, rest, .tail _ hmem, rfl, hat⟩
      · rintro path s ⟨other, u, rest, hmem, rfl, hat⟩ -
        rcases List.mem_cons.mp hmem with heq | hmem
        · cases heq
          exact .inl ⟨rest, rfl, hat⟩
        · exact .inr ⟨other, u, rest, hmem, rfl, hat⟩

theorem ends_bare (h : t.Bare) : empty.Ends c env n t n :=
  ⟨rfl, fits_empty h⟩

/-- A node is laid out as its positional arguments are. -/
theorem ends_decorated (h : t.Decorated kind ts) (hkind : kind.Ordinary)
    (hargs : FitsArgs c env n ts ls m) : (args 0 ls).Ends c env n t m := by
  obtain ⟨named, rfl, hleaf⟩ := h
  obtain ⟨hm, hfits⟩ := fits_args hargs 0
  refine ⟨hm, fits_of hfits ?_ ?_⟩
  · rintro path s ⟨j, u, rest, hj, rfl, hat⟩
    rw [Nat.zero_add]
    exact ⟨u, hj, hat⟩
  · intro path s hat hs
    cases path with
    | nil =>
        rw [show s = .apply kind ts named from hat] at hs
        exact (ordinary_not_followed hkind hs).elim
    | cons e path =>
        obtain ⟨u, hchild, hat⟩ := hat
        cases e with
        | arg i => exact ⟨i, u, path, hchild, by rw [Nat.zero_add], hat⟩
        | named name =>
            obtain ⟨d, hd⟩ := hleaf (name, u) hchild
            rw [show u = .datum d from hd] at hat
            exact (bare_leaf d path s hat hs).elim

theorem ends_node (hkind : kind.Ordinary)
    (hargs : FitsArgs c env n ts ls m) :
    (args 0 ls).Ends c env n (.node kind ts) m :=
  ends_decorated (decorated_node kind ts) hkind hargs

/-- An object is laid out as its members are, in whatever order they are
    kept. -/
theorem ends_object {out : List (String × Term)}
    {ls : List (String × Layout Param)} (hperm : out.Perm named)
    (h : FitsNamed c env n named ls m) :
    (members ls).Ends c env n (.apply .makeObj [] out) m := by
  obtain ⟨hm, hfits⟩ := fits_members h
  refine ⟨hm, fits_of hfits ?_ ?_⟩
  · rintro path s ⟨name, u, rest, hmem, rfl, hat⟩
    exact ⟨u, hperm.mem_iff.mpr hmem, hat⟩
  · intro path s hat hs
    cases path with
    | nil =>
        rw [show s = .apply .makeObj [] out from hat] at hs
        have hkind : Kind.makeObj.Ordinary := by decide
        exact (ordinary_not_followed hkind hs).elim
    | cons e path =>
        obtain ⟨u, hchild, hat⟩ := hat
        cases e with
        | arg i => cases hchild
        | named name =>
            exact ⟨name, u, path, hperm.mem_iff.mp hchild, rfl, hat⟩

/-- Below a reference is the leaf of its number. -/
theorem at_reference {id : Nat} {path : Path} {s : Term}
    (h : (Term.variableRef id).At path s) (hs : s.kind.Followed) :
    path = [] ∧ s = .variableRef id := by
  cases path with
  | nil => exact ⟨rfl, h⟩
  | cons e path =>
      obtain ⟨u, hchild, hat⟩ := h
      cases e with
      | named name => cases hchild
      | arg i =>
          have hu : u ∈ [Term.number id] := List.mem_of_getElem? hchild
          rw [List.mem_singleton.mp hu] at hat
          exact (bare_leaf _ path s hat hs).elim

/-- A reference is one use, of what its number stands for. -/
theorem ends_use {p : Param} {id : Nat} (h : env p = some id) :
    (use p).Ends c env n (.variableRef id) n where
  left := rfl
  right :=
    { chains := List.forall_mem_nil _
      functions := List.forall_mem_nil _
      bound := by
        refine List.forall_mem_singleton.mpr ?_
        rintro k i ⟨⟩
      outside := List.forall_mem_singleton.mpr fun _ => ⟨id, h, rfl⟩
      onlyFunctions := fun path s hat hkind => by
        obtain ⟨-, rfl⟩ := at_reference hat (.inl hkind)
        cases hkind
      onlyUses := fun path s hat hkind => by
        obtain ⟨rfl, -⟩ := at_reference hat (.inr hkind)
        exact ⟨_, .head _, rfl⟩ }

/-- The numbers of a function are leaves. -/
theorem bare_numbers (ids : List Nat) :
    (Term.node .makeArray (ids.map .number)).Bare := by
  refine bare_decorated (decorated_node _ _) (by decide) ?_
  exact List.forall_mem_map.mpr fun id _ => bare_leaf _

/-- Below a function is its body. -/
theorem at_function {ids : List Nat} {body s : Term} {path : Path}
    (h : (Term.function ids body).At path s) (hs : s.kind.Followed) :
    path = [] ∨ Below (.arg 1) body.At path s := by
  cases path with
  | nil => exact .inl rfl
  | cons e path =>
      obtain ⟨u, hchild, hat⟩ := h
      cases e with
      | named name => cases hchild
      | arg i =>
          match i, hchild with
          | 0, hchild =>
              cases hchild
              exact (bare_numbers ids path s hat hs).elim
          | 1, hchild =>
              cases hchild
              exact .inr ⟨path, rfl, hat⟩
          | i + 2, hchild => cases hchild

/-- An environment finds a parameter where a layout does. -/
theorem position_eq (p : Param) (ps : List Param) :
    position? p ps = lastPosition? p ps := by
  induction ps with
  | nil => rfl
  | cons q qs ih =>
      cases hqs : lastPosition? p qs with
      | some i => rw [position?, lastPosition?, ih, hqs]
      | none => rw [position?, lastPosition?, ih, hqs]

/-- A function is laid out as its body is, where its parameters are
    numbered first. -/
theorem fits_function {params : List Param} {body : Term}
    (h : l.Fits c (env.declare params n) (n + params.length) body.At) :
    (function params l).Fits c env n
      (Term.function (List.range' n params.length) body).At where
  chains := by
    refine List.forall_mem_map.mpr fun s hs => ?_
    obtain ⟨hbefore, inner, t, m, ht, hm, hat⟩ := h.chains s hs
    refine ⟨Nat.add_le_add_left hbefore _, inner, t, m, ?_, ?_, ?_⟩
    · rw [← ht, Nat.add_assoc]
      rfl
    · show m ≤ n + (params.length + l.count)
      omega
    · exact ⟨body, rfl, hat⟩
  functions := by
    refine List.forall_mem_cons.mpr ⟨⟨body, rfl⟩,
      List.forall_mem_map.mpr fun s hs => ?_⟩
    obtain ⟨inner, hat⟩ := h.functions s hs
    refine ⟨inner, body, rfl, ?_⟩
    show body.At s.path (.function
      (List.range' (n + (params.length + s.before)) s.item.length) inner)
    rw [← Nat.add_assoc]
    exact hat
  bound := by
    refine List.forall_mem_map.mpr fun u hu k i hbinder => ?_
    cases hinner : u.binder with
    | some b =>
        obtain ⟨j, p⟩ := b
        rw [Use.enclosed, hinner] at hbinder
        cases hbinder
        obtain ⟨s, hs, hat⟩ := h.bound u hu j i hinner
        refine ⟨(s.after params.length).under (.arg 1), ?_, body, rfl, ?_⟩
        · show (_ :: l.functions.map _)[j + 1]? = _
          rw [List.getElem?_cons_succ, List.getElem?_map, hs]
          rfl
        · show body.At u.path
            (.variableRef (n + (params.length + s.before) + i))
          rw [← Nat.add_assoc n]
          exact hat
    | none =>
        rw [Use.enclosed, hinner] at hbinder
        obtain ⟨j, hj, heq⟩ := Option.map_eq_some_iff.mp hbinder
        cases heq
        obtain ⟨id, hid, hat⟩ := h.outside u hu hinner
        rw [Environment.declare, ← position_eq, hj] at hid
        cases hid
        exact ⟨_, rfl, body, rfl, hat⟩
  outside := by
    refine List.forall_mem_map.mpr fun u hu hbinder => ?_
    cases hinner : u.binder with
    | some b =>
        rw [Use.enclosed, hinner] at hbinder
        cases hbinder
    | none =>
        rw [Use.enclosed, hinner] at hbinder
        have hposition := Option.map_eq_none_iff.mp hbinder
        obtain ⟨id, hid, hat⟩ := h.outside u hu hinner
        rw [Environment.declare, ← position_eq, hposition] at hid
        exact ⟨id, hid, body, rfl, hat⟩
  onlyFunctions path s hat hkind := by
    rcases at_function hat (.inl hkind) with rfl | ⟨rest, rfl, hbody⟩
    · exact ⟨_, .head _, rfl⟩
    · obtain ⟨f, hf, rfl⟩ := h.onlyFunctions rest s hbody hkind
      exact ⟨_, .tail _ (List.mem_map_of_mem hf), rfl⟩
  onlyUses path s hat hkind := by
    rcases at_function hat (.inr hkind) with rfl | ⟨rest, rfl, hbody⟩
    · rw [show s = .function (List.range' n params.length) body
        from hat] at hkind
      cases hkind
    · obtain ⟨u, hu, rfl⟩ := h.onlyUses rest s hbody hkind
      exact ⟨_, List.mem_map_of_mem hu, rfl⟩

theorem ends_function {params : List Param} {body : Term}
    (h : l.Ends c (env.declare params n) (n + params.length) body m) :
    (function params l).Ends c env n
      (.function (List.range' n params.length) body) m := by
  obtain ⟨rfl, hfits⟩ := h
  exact ⟨Nat.add_assoc _ _ _, fits_function hfits⟩

/-- A chain is at the top of its own term. -/
theorem ends_ofChain {q : Query} {inner : Environment}
    (hq : q.translate c inner n = (.ok t, m))
    (h : l.Ends c env n t m) : (ofChain q l).Ends c env n t m := by
  obtain ⟨rfl, hfits⟩ := h
  exact ⟨rfl, fits_ofChain hq rfl hfits⟩

/-! ## Translations that layouts fit -/

variable {α β : Type}

/-- When a sequence gives a result, its first part gives one that its
    second part goes on from. -/
theorem Translation.andThen_ok {x : Translation α}
    {f : α → Translation β} {b : β} (h : (x >>= f) n = (.ok b, m)) :
    ∃ a k, x n = (.ok a, k) ∧ f a k = (.ok b, m) := by
  replace h : andThen x f n = (.ok b, m) := h
  rw [andThen] at h
  rcases hx : x n with ⟨r, k⟩
  rw [hx] at h
  cases r with
  | error e => cases h
  | ok a => exact ⟨a, k, rfl, h⟩

/-- The same of a first part that uses no number. -/
theorem Translation.except_ok {r : Except TermError α}
    {f : α → Translation β} {b : β} (h : (ofExcept r >>= f) n = (.ok b, m)) :
    ∃ a, r = .ok a ∧ f a n = (.ok b, m) := by
  obtain ⟨a, k, hr, hf⟩ := andThen_ok h
  obtain ⟨hr', rfl⟩ := Prod.mk.inj hr
  exact ⟨a, hr', hf⟩

/-- A layout fits whatever term a translation gives. -/
def Translation.Lays (c : Converter) (env : Environment)
    (l : Layout Param) (y : Translation Term) : Prop :=
  ∀ n t m, y n = (.ok t, m) → l.Ends c env n t m

/-- In every environment, an expression is laid out right. -/
def Expr.Laid (c : Converter) (e : Expr) : Prop :=
  ∀ env, Lays c env e.layout (e.translate c env)

/-- In every environment, a chain is laid out right. -/
def Query.Laid (c : Converter) (q : Query) : Prop :=
  ∀ env, Lays c env q.layout (q.translate c env)

theorem lays_bare {r : Except TermError Term}
    (h : ∀ t, r = .ok t → t.Bare) : Lays c env empty (ofExcept r) := by
  intro n t m ht
  obtain ⟨hr, rfl⟩ := Prod.mk.inj ht
  exact ends_bare (h t hr)

/-- A chain among the parts of a node. -/
theorem lays_chain {q : Query} (h : q.Laid c) :
    Lays c env (ofChain q q.layout) (q.translate c env) :=
  fun n t m ht => ends_ofChain ht (h env n t m ht)

theorem lays_func {f : Func} (h : f.body.Laid c) :
    Lays c env f.layout (f.translate c env) := by
  intro n t m ht
  obtain ⟨first, k, hfirst, ht⟩ := andThen_ok ht
  cases hfirst
  obtain ⟨body, k, hbody, ht⟩ := andThen_ok ht
  cases ht
  exact ends_function (h _ _ body m hbody)

theorem lays_rowFunc {f : RowFunc} (h : f.toFunc.body.Laid c) :
    Lays c env f.layout (f.translate c env) := by
  rw [rowFunc_layout, rowFunc_translate]
  exact lays_func h

theorem lays_pairFunc {f : PairFunc} (h : f.toFunc.body.Laid c) :
    Lays c env f.layout (f.translate c env) := by
  rw [pairFunc_layout, pairFunc_translate]
  exact lays_func h

theorem lays_items {es : List Expr} (h : ∀ e ∈ es, e.Laid c)
    (hts : translateItems c env es n = (.ok ts, m)) :
    FitsArgs c env n ts (itemLayouts es) m := by
  induction es generalizing n ts with
  | nil =>
      cases hts
      exact .bare (List.forall_mem_nil _)
  | cons e es ih =>
      obtain ⟨he, hes⟩ := List.forall_mem_cons.mp h
      rw [translateItems] at hts
      obtain ⟨t, k, ht, hts⟩ := andThen_ok hts
      obtain ⟨ts', k', hts', hts⟩ := andThen_ok hts
      cases hts
      exact .cons (he env n t k ht) (ih hes hts')

/-- The terms of members, in the order of the members, are found among
    those done before. -/
theorem lays_members {ms : List (String × Expr)}
    (h : ∀ e ∈ ms, e.2.Laid c) {done out : List (String × Term)}
    (hout : translateMembers c env ms done n = (.ok out, m)) :
    ∃ named, FitsNamed c env n named (memberLayouts ms) m ∧
      out.Perm (named ++ done) := by
  induction ms generalizing n done with
  | nil =>
      cases hout
      exact ⟨[], .nil, .refl _⟩
  | cons e ms ih =>
      obtain ⟨name, e⟩ := e
      obtain ⟨he, hms⟩ := List.forall_mem_cons.mp h
      rw [translateMembers] at hout
      obtain ⟨t, k, ht, hout⟩ := andThen_ok hout
      by_cases hd : Entries.has name done = true
      · rw [if_pos hd] at hout
        cases hout
      · rw [if_neg hd] at hout
        obtain ⟨named, hnamed, hperm⟩ := ih hms hout
        have hput := Entries.put_perm t (mt Entries.has_iff.mpr hd)
        exact ⟨(name, t) :: named, .cons (he env n t k ht) hnamed,
          (hperm.trans (hput.append_left named)).trans List.perm_middle⟩

theorem lays_key {k : SortKey} (h : k.body.Laid c) :
    Lays c env k.layout (k.translate c env) := by
  obtain ⟨f, direction⟩ := k
  intro n t m ht
  rw [translate_key] at ht
  obtain ⟨key, k, hkey, ht⟩ := andThen_ok ht
  cases ht
  have hkind := ordinary_direction direction
  rw [SortKey.layout]
  cases hname : f.toFunc.memberName? with
  | some name =>
      rw [hname] at hkey
      cases hkey
      exact ends_bare (bare_decorated (decorated_node _ _) hkind
        (List.forall_mem_singleton.mpr (bare_text name)))
  | none =>
      rw [hname] at hkey
      exact ends_node hkind
        (.cons (lays_rowFunc h n key m hkey) (.bare (List.forall_mem_nil _)))

theorem lays_keys {ks : List SortKey} (h : ∀ k ∈ ks, k.body.Laid c)
    (hts : translateKeys c env ks n = (.ok ts, m)) :
    FitsArgs c env n ts (keyLayouts ks) m := by
  induction ks generalizing n ts with
  | nil =>
      cases hts
      exact .bare (List.forall_mem_nil _)
  | cons key ks ih =>
      obtain ⟨hkey, hks⟩ := List.forall_mem_cons.mp h
      rw [translateKeys] at hts
      obtain ⟨t, k, ht, hts⟩ := andThen_ok hts
      obtain ⟨ts', k', hts', hts⟩ := andThen_ok hts
      cases hts
      exact .cons (lays_key hkey n t k ht) (ih hks hts')

/-- No more arguments. -/
theorem fits_none : FitsArgs c env n [] [] n :=
  .bare (List.forall_mem_nil _)

/-- A node of one part. -/
theorem lays_one {x : Translation Term} {f : Term → Term}
    (hx : Lays c env l x) (hkind : kind.Ordinary) {rest : List Term}
    (hf : ∀ t, (f t).Decorated kind (t :: rest))
    (hrest : ∀ t ∈ rest, t.Bare) :
    Lays c env (args 0 [l]) (x >>= fun t => pure (f t)) := by
  intro n t m ht
  obtain ⟨u, k, hu, ht⟩ := andThen_ok ht
  cases ht
  exact ends_decorated (hf u) hkind (.cons (hx n u m hu) (.bare hrest))

/-- A node of two parts. -/
theorem lays_two {r : Layout Param} {x y : Translation Term}
    (hx : Lays c env l x) (hy : Lays c env r y) (hkind : kind.Ordinary) :
    Lays c env (args 0 [l, r])
      (x >>= fun t => y >>= fun u => pure (.node kind [t, u])) := by
  intro n t m ht
  obtain ⟨u, k, hu, ht⟩ := andThen_ok ht
  obtain ⟨v, k', hv, ht⟩ := andThen_ok ht
  cases ht
  exact ends_node hkind (.cons (hx n u k hu) (.cons (hy k v m hv) fits_none))

/-- A node of a list of expressions. -/
theorem lays_list {es : List Expr} (h : ∀ e ∈ es, e.Laid c)
    (hkind : kind.Ordinary) :
    Lays c env (args 0 (itemLayouts es))
      (translateItems c env es >>= fun ts => pure (.node kind ts)) := by
  intro n t m ht
  obtain ⟨ts, k, hts, ht⟩ := andThen_ok ht
  cases ht
  exact ends_node hkind (lays_items h hts)

/-- Every form of node is laid out right when its parts are. -/
theorem laid_hereditary (c : Converter) :
    Hereditary (Expr.Laid c) (Query.Laid c) where
  param p env n t m ht := by
    rw [Expr.translate, Environment.reference] at ht
    cases hp : env p with
    | none =>
        rw [hp] at ht
        cases ht
    | some id =>
        rw [hp] at ht
        cases ht
        exact ends_use hp
  literal v env := lays_bare fun _ => bare_judge
  field _ name he env :=
    lays_one (he env) (by decide : Kind.getField.Ordinary)
      (fun _ => decorated_node _ _)
      (List.forall_mem_singleton.mpr (bare_text name))
  compare op _ _ ha hb env :=
    lays_two (ha env) (hb env) (ordinary_compare op)
  arith op _ _ ha hb env := lays_two (ha env) (hb env) (ordinary_arith op)
  all _ hes env := lays_list hes (by decide)
  any _ hes env := lays_list hes (by decide)
  not _ he env :=
    lays_one (he env) (by decide : Kind.not.Ordinary)
      (fun _ => decorated_node _ _) (List.forall_mem_nil _)
  array _ hes env := lays_list hes (by decide)
  object _ hms env n t m ht := by
    obtain ⟨out, k, hout, ht⟩ := andThen_ok ht
    cases ht
    obtain ⟨named, hnamed, hperm⟩ := lays_members hms hout
    rw [List.append_nil] at hperm
    exact ends_object hperm hnamed
  call name es hes env n t m ht := by
    obtain ⟨kind, hkind, ht⟩ := except_ok ht
    exact lays_list hes (ordinary_call hkind) n t m ht
  subquery _ _ hq env := lays_chain hq
  root r env := lays_bare fun _ => bare_root
  indexCreateWith table name _ hkey env n t m ht := by
    obtain ⟨key, k, hk, ht⟩ := andThen_ok ht
    cases ht
    exact ends_node (by decide) (.cons (ends_bare (bare_table table))
      (.cons (ends_bare (bare_text name))
        (.cons (lays_rowFunc hkey n key m hk) fits_none)))
  step _ s hq env n t m ht := by
    obtain ⟨source, k, hsource, ht⟩ := andThen_ok ht
    obtain ⟨literals, hliterals, ht⟩ := except_ok ht
    cases ht
    exact ends_decorated (decorated_step s _) (ordinary_step s)
      (.cons (lays_chain hq n source m hsource)
        (.bare (bare_literals hliterals)))
  rowStep _ s _ hq hf env n t m ht := by
    obtain ⟨source, k, hsource, ht⟩ := andThen_ok ht
    obtain ⟨f, k', hf', ht⟩ := andThen_ok ht
    cases ht
    exact ends_decorated (decorated_rowStep s _) (ordinary_rowStep s)
      (.cons (lays_chain hq n source k hsource)
        (.cons (lays_rowFunc hf k f m hf') fits_none))
  orderBy _ _ _ hq hfirst hothers env n t m ht := by
    obtain ⟨source, k, hsource, ht⟩ := andThen_ok ht
    obtain ⟨first, k', hfirst', ht⟩ := andThen_ok ht
    obtain ⟨others, k'', hothers', ht⟩ := andThen_ok ht
    cases ht
    exact ends_node (by decide) (.cons (lays_chain hq n source k hsource)
      (.cons (lays_key hfirst k first k' hfirst')
        (lays_keys hothers hothers')))
  union _ _ ha hb env := lays_two (lays_chain ha) (lays_chain hb) (by decide)
  reduce _ _ base hq hf env n t m ht := by
    obtain ⟨source, k, hsource, ht⟩ := andThen_ok ht
    obtain ⟨f, k', hf', ht⟩ := andThen_ok ht
    obtain ⟨b, hb, ht⟩ := except_ok ht
    cases ht
    exact ends_decorated (decorated_base hb (decorated_node _ _)) (by decide)
      (.cons (lays_chain hq n source k hsource)
        (.cons (lays_pairFunc hf k f m hf') fits_none))
  groupBy _ _ _ hq hkey env n t m ht := by
    obtain ⟨source, k, hsource, ht⟩ := andThen_ok ht
    obtain ⟨key, k', hkey', ht⟩ := andThen_ok ht
    obtain ⟨reduction, hreduction, ht⟩ := except_ok ht
    cases ht
    exact ends_node (by decide) (.cons (lays_chain hq n source k hsource)
      (.cons (lays_rowFunc hkey k key m hkey')
        (.bare (List.forall_mem_singleton.mpr
          (bare_reduction hreduction)))))
  groupedMapReduce _ _ _ _ base hq hg hm hr env n t m ht := by
    obtain ⟨source, k, hsource, ht⟩ := andThen_ok ht
    obtain ⟨grouping, kg, hgrouping, ht⟩ := andThen_ok ht
    obtain ⟨mapping, km, hmapping, ht⟩ := andThen_ok ht
    obtain ⟨reduction, kr, hreduction, ht⟩ := andThen_ok ht
    obtain ⟨b, hb, ht⟩ := except_ok ht
    cases ht
    exact ends_decorated (decorated_base hb (decorated_node _ _)) (by decide)
      (.cons (lays_chain hq n source k hsource)
        (.cons (lays_rowFunc hg k grouping kg hgrouping)
          (.cons (lays_rowFunc hm kg mapping km hmapping)
            (.cons (lays_pairFunc hr km reduction m hreduction)
              fits_none))))
  join kind _ _ _ ha hb hf env n t m ht := by
    obtain ⟨left, k, hleft, ht⟩ := andThen_ok ht
    obtain ⟨right, k', hright, ht⟩ := andThen_ok ht
    obtain ⟨f, k'', hf', ht⟩ := andThen_ok ht
    cases ht
    exact ends_node (ordinary_join kind)
      (.cons (lays_chain ha n left k hleft)
        (.cons (lays_chain hb k right k' hright)
          (.cons (lays_pairFunc hf k' f m hf') fits_none)))
  eqJoin _ _ _ index ha hb env n t m ht := by
    obtain ⟨left, k, hleft, ht⟩ := andThen_ok ht
    obtain ⟨member, hmember, ht⟩ := except_ok ht
    obtain ⟨right, k', hright, ht⟩ := andThen_ok ht
    cases ht
    exact ends_decorated (decorated_withText (decorated_node _ _) _ _)
      (by decide)
      (.cons (lays_chain ha n left k hleft)
        (.cons (ends_bare (bare_member hmember))
          (.cons (lays_chain hb k right m hright) fits_none)))

end ChainQuery

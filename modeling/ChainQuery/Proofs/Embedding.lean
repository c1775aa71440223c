import ChainQuery.Proofs.Fitting
import ChainQuery.Proofs.Raising

/-! # Embedding — a chain means the same wherever it stands

    A chain that has a term of its own has the same term inside any other
    chain and under any functions, with the numbers of its variables as
    much higher as variables were numbered before it.  The route:

    * more parameters declared outside only take away reasons to fail
      (`Eased`, `eases_hereditary`), so every other error stays;
    * in its own run nothing outside is referred to, so the shifted term
      of another run is the raised one (`translate_raised`);
    * the layout of a chain tells where the chains in it stand and how
      much is numbered before each (`raised_at`). -/

namespace ChainQuery

open Term Translation

variable {c : Converter} {q : Query} {t : Term}

/-! ## Errors in a wider scope -/

/-- The second of two lists of errors is the first with some of the free
    parameters gone. -/
inductive Eased : List TermError → List TermError → Prop where
  | nil : Eased [] []
  | keep {es fs : List TermError} (e : TermError) :
      Eased es fs → Eased (e :: es) (e :: fs)
  | drop {es fs : List TermError} (p : Param) :
      Eased es fs → Eased (.unsupported (.freeParam p) :: es) fs

theorem eased_refl (es : List TermError) : Eased es es := by
  induction es with
  | nil => exact .nil
  | cons e es ih => exact .keep e ih

theorem eased_append {es fs es' fs' : List TermError} (h : Eased es fs)
    (h' : Eased es' fs') : Eased (es ++ es') (fs ++ fs') := by
  induction h with
  | nil => exact h'
  | keep e _ ih => exact .keep e ih
  | drop p _ ih => exact .drop p ih

/-- An error that is no free parameter stays the first. -/
theorem eased_head {es fs : List TermError} {e : TermError}
    (h : Eased es fs) (hfree : ∀ p, e ≠ .unsupported (.freeParam p))
    (he : es.head? = some e) : fs.head? = some e := by
  cases h with
  | nil => exact he
  | keep _ _ => exact he
  | drop p _ => exact absurd (Option.some.inj he).symm (hfree p)

/-- Declaring more eases what is wrong with an expression. -/
def Expr.Eases (c : Converter) (e : Expr) : Prop :=
  ∀ declared declared' : List Param, declared ⊆ declared' →
    Eased (e.violations c declared) (e.violations c declared')

/-- Declaring more eases what is wrong with a chain. -/
def Query.Eases (c : Converter) (q : Query) : Prop :=
  ∀ declared declared' : List Param, declared ⊆ declared' →
    Eased (q.violations c declared) (q.violations c declared')

section

variable {declared declared' : List Param}

theorem eases_items {es : List Expr} (h : ∀ e ∈ es, e.Eases c)
    (hsub : declared ⊆ declared') :
    Eased (itemViolations c declared es)
      (itemViolations c declared' es) := by
  induction es with
  | nil => exact .nil
  | cons e es ih =>
      obtain ⟨he, hes⟩ := List.forall_mem_cons.mp h
      exact eased_append (he _ _ hsub) (ih hes)

theorem eases_members {ms : List (String × Expr)}
    (h : ∀ m ∈ ms, m.2.Eases c) (hsub : declared ⊆ declared')
    (earlier : List String) :
    Eased (memberViolations c declared earlier ms)
      (memberViolations c declared' earlier ms) := by
  induction ms generalizing earlier with
  | nil => exact .nil
  | cons m ms ih =>
      obtain ⟨name, e⟩ := m
      obtain ⟨he, hms⟩ := List.forall_mem_cons.mp h
      exact eased_append (he _ _ hsub)
        (eased_append (eased_refl _) (ih hms (name :: earlier)))

theorem eases_rowFunc {f : RowFunc} (h : f.toFunc.body.Eases c)
    (hsub : declared ⊆ declared') :
    Eased (f.violations c declared) (f.violations c declared') := by
  obtain ⟨row, body⟩ := f
  exact h _ _ (List.cons_subset_cons row hsub)

theorem eases_pairFunc {f : PairFunc} (h : f.toFunc.body.Eases c)
    (hsub : declared ⊆ declared') :
    Eased (f.violations c declared) (f.violations c declared') := by
  obtain ⟨left, right, body⟩ := f
  exact h _ _ (List.cons_subset_cons left (List.cons_subset_cons right hsub))

theorem eases_key {k : SortKey} (h : k.body.Eases c)
    (hsub : declared ⊆ declared') :
    Eased (k.violations c declared) (k.violations c declared') := by
  obtain ⟨selector, direction⟩ := k
  exact eases_rowFunc (f := selector) h hsub

theorem eases_keys {ks : List SortKey} (h : ∀ k ∈ ks, k.body.Eases c)
    (hsub : declared ⊆ declared') :
    Eased (keyViolations c declared ks)
      (keyViolations c declared' ks) := by
  induction ks with
  | nil => exact .nil
  | cons k ks ih =>
      obtain ⟨hk, hks⟩ := List.forall_mem_cons.mp h
      exact eased_append (eases_key hk hsub) (ih hks)

end

/-- Every form of node is eased when its parts are. -/
theorem eases_hereditary (c : Converter) :
    Hereditary (Expr.Eases c) (Query.Eases c) where
  param p declared declared' hsub := by
    rw [Expr.violations, Expr.violations]
    by_cases hp : p ∈ declared
    · rw [if_pos hp, if_pos (hsub hp)]
      exact .nil
    · rw [if_neg hp]
      split
      · exact .drop p .nil
      · exact eased_refl _
  literal _ _ _ _ := eased_refl _
  field _ _ he := he
  compare _ _ _ ha hb _ _ hsub :=
    eased_append (ha _ _ hsub) (hb _ _ hsub)
  arith _ _ _ ha hb _ _ hsub := eased_append (ha _ _ hsub) (hb _ _ hsub)
  all _ hes _ _ hsub := eases_items hes hsub
  any _ hes _ _ hsub := eases_items hes hsub
  not _ he := he
  array _ hes _ _ hsub := eases_items hes hsub
  object _ hms _ _ hsub := eases_members hms hsub []
  call _ _ hes _ _ hsub :=
    eased_append (eased_refl _) (eases_items hes hsub)
  subquery _ _ hq := hq
  root _ _ _ _ := eased_refl _
  indexCreateWith _ _ _ hkey _ _ hsub := eases_rowFunc hkey hsub
  step _ _ hq _ _ hsub := eased_append (hq _ _ hsub) (eased_refl _)
  rowStep _ _ _ hq hf _ _ hsub :=
    eased_append (hq _ _ hsub) (eases_rowFunc hf hsub)
  orderBy _ _ _ hq hfirst hothers _ _ hsub :=
    eased_append (hq _ _ hsub)
      (eased_append (eases_key hfirst hsub) (eases_keys hothers hsub))
  union _ _ ha hb _ _ hsub := eased_append (ha _ _ hsub) (hb _ _ hsub)
  reduce _ _ _ hq hf _ _ hsub :=
    eased_append (hq _ _ hsub)
      (eased_append (eases_pairFunc hf hsub) (eased_refl _))
  groupBy _ _ _ hq hkey _ _ hsub :=
    eased_append (hq _ _ hsub)
      (eased_append (eases_rowFunc hkey hsub) (eased_refl _))
  groupedMapReduce _ _ _ _ _ hq hg hm hr _ _ hsub :=
    eased_append (hq _ _ hsub)
      (eased_append (eases_rowFunc hg hsub)
        (eased_append (eases_rowFunc hm hsub)
          (eased_append (eases_pairFunc hr hsub) (eased_refl _))))
  join _ _ _ _ ha hb hf _ _ hsub :=
    eased_append (ha _ _ hsub)
      (eased_append (hb _ _ hsub) (eases_pairFunc hf hsub))
  eqJoin _ _ _ _ ha hb _ _ hsub :=
    eased_append (ha _ _ hsub)
      (eased_append (eased_refl _) (hb _ _ hsub))

/-- What a walk of a chain ends with: the first thing that is wrong with
    the chain in the scope found, or a term. -/
theorem verdict_walk (c : Converter) (q : Query) (ctx : Context) :
    Verdict (q.violations c (ctx.scope.map Prod.fst))
      (q.walk c ctx).result := by
  obtain ⟨hresult, -⟩ := follows_job c (.query q) ctx.scope ctx.next
  have hjudged := (judged_hereditary c).query q _ _
    (knows_scope ctx.scope) ctx.next
  rw [show (q.walk c ctx).result = _ from hresult]
  exact hjudged

/-- An error that is no free parameter is met in every scope. -/
theorem error_anywhere {e : TermError}
    (h : (q.generate c).result = .error e)
    (hfree : ∀ p, e ≠ .unsupported (.freeParam p)) (ctx : Context) :
    (q.walk c ctx).result = .error e := by
  have hfirst := (verdict_error (verdict_walk c q .fresh)).mp h
  have heased := (eases_hereditary c).query q []
    (ctx.scope.map Prod.fst) (List.nil_subset _)
  exact (verdict_error (verdict_walk c q ctx)).mpr
    (eased_head heased hfree hfirst)

/-! ## Terms in a wider scope -/

/-- A run of its own, in terms of translations. -/
theorem translate_of_generate (h : (q.generate c).result = .ok t) :
    q.translate c (.ofScope []) 1
      = (.ok t, (q.generate c).context.next) := by
  obtain ⟨hresult, hcontext⟩ := follows_job c (.query q) [] 1
  refine Prod.ext (hresult.symm.trans h) ?_
  exact (congrArg Context.next hcontext).symm

/-- The numbers of a run of its own that stays below `2 ^ 53` are
    small. -/
theorem small_of_generate (h : (q.generate c).result = .ok t)
    (hnext : (q.generate c).context.next ≤ 2 ^ 53) :
    ∀ x ∈ t.declared, Small x := by
  obtain ⟨m, hm, -, hok⟩ := job_counts c (.query q) 1
  have hm' : (q.generate c).context.next = m := congrArg Context.next hm
  obtain ⟨⟨-, hperm⟩, -⟩ := hok t h
  intro x hx
  obtain ⟨id, hid, rfl⟩ := List.mem_map.mp (hperm.mem_iff.mp hx)
  have := List.mem_range'_1.mp hid
  exact ⟨id, by omega, rfl⟩

/-- A chain that has a term of its own has that term raised in every
    environment, wherever its numbers start. -/
theorem translate_raised (h : (q.generate c).result = .ok t)
    (hnext : (q.generate c).context.next ≤ 2 ^ 53) (env : Environment)
    (k : Nat) :
    q.translate c env (1 + k)
      = (.ok (t.raise k), (q.generate c).context.next + k) := by
  have hmoved : Environment.Moved k (fun _ => False) [] (.ofScope [])
      env := by
    intro p id hid
    cases hid
  obtain ⟨-, t', ht', hshift⟩ :=
    (shifts_hereditary c 1 k (fun _ => False)).query q [] _ _ hmoved 1 t _
      (Nat.le_refl 1) (translate_of_generate h)
  rw [ht', raise_shifted hshift (List.forall_mem_nil _)
    (small_of_generate h hnext)]

/-- Raised by nothing, a term of its own is itself. -/
theorem raise_zero (h : (q.generate c).result = .ok t)
    (hnext : (q.generate c).context.next ≤ 2 ^ 53) : t.raise 0 = t := by
  have hraised := translate_raised h hnext (.ofScope []) 0
  rw [Nat.add_zero, translate_of_generate h] at hraised
  exact (Except.ok.inj (congrArg Prod.fst hraised)).symm

/-! ## Chains in chains -/

/-- How many variables a run of its own numbers. -/
theorem next_of_generate (h : (q.generate c).result = .ok t) :
    (q.generate c).context.next = 1 + q.layout.count :=
  ((laid_hereditary c).query q _ 1 t _ (translate_of_generate h)).1

/-- A chain laid out in another stands there with its own term, raised by
    how much is numbered before it. -/
theorem raised_at (h : (q.generate c).result = .ok t)
    (hnext : (q.generate c).context.next ≤ 2 ^ 53) {s : Spot Query}
    (hs : s ∈ q.layout.chains) {own : Term}
    (hown : (s.item.generate c).result = .ok own) :
    (s.item.generate c).context.next ≤ 2 ^ 53 ∧
      t.At s.path (own.raise s.before) := by
  obtain ⟨-, hfits⟩ :=
    (laid_hereditary c).query q _ 1 t _ (translate_of_generate h)
  obtain ⟨-, inner, u, m, hu, hm, hat⟩ := hfits.chains s hs
  obtain ⟨hcount, -⟩ := (laid_hereditary c).query s.item _ _ u m hu
  have hbound : (s.item.generate c).context.next ≤ 2 ^ 53 := by
    rw [next_of_generate h] at hnext
    rw [next_of_generate hown]
    omega
  refine ⟨hbound, ?_⟩
  rw [translate_raised hown hbound inner s.before] at hu
  cases hu
  exact hat

/-- The chain that an operation takes its rows from. -/
def Query.firstSource? : Query → Option Query
  | .root _ => none
  | .indexCreateWith _ _ _ => none
  | .step source _ => some source
  | .rowStep source _ _ => some source
  | .orderBy source _ _ => some source
  | .union first _ => some first
  | .reduce source _ _ => some source
  | .groupBy source _ _ => some source
  | .groupedMapReduce source _ _ _ _ => some source
  | .join _ left _ _ => some left
  | .eqJoin left _ _ _ => some left

/-- The other chain of a union or a join, and which argument it is. -/
def Query.secondSource? : Query → Option (Nat × Query)
  | .union _ second => some (1, second)
  | .join _ _ right _ => some (1, right)
  | .eqJoin _ _ right _ => some (2, right)
  | _ => none

/-- A first source is laid out first. -/
theorem firstSource_spot {first : Query}
    (h : q.firstSource? = some first) :
    ⟨[.arg 0], 0, first⟩ ∈ q.layout.chains := by
  cases q <;> cases h <;> exact .head _

/-- A second source is laid out after the first. -/
theorem secondSource_spot {first second : Query} {i : Nat}
    (h : q.firstSource? = some first)
    (h' : q.secondSource? = some (i, second)) :
    ⟨[.arg i], first.layout.count, second⟩ ∈ q.layout.chains := by
  cases q <;> cases h' <;> cases h <;>
    refine List.mem_append_right _ (List.mem_map.mpr ?_)
  · exact ⟨⟨[.arg 1], 0, second⟩, .head _, rfl⟩
  · exact ⟨⟨[.arg 1], 0, second⟩, .head _, rfl⟩
  · exact ⟨⟨[.arg 2], 0, second⟩, .head _, rfl⟩

/-- What is wrong with a source is wrong with the operation on it. -/
theorem source_violations {source : Query}
    (hsource : q.firstSource? = some source ∨
      ∃ i, q.secondSource? = some (i, source))
    {declared : List Param} (h : q.violations c declared = []) :
    source.violations c declared = [] := by
  rcases hsource with hfirst | ⟨i, hsecond⟩
  · cases q <;> cases hfirst <;> exact (List.append_eq_nil_iff.mp h).1
  · cases q <;> cases hsecond
    · exact (List.append_eq_nil_iff.mp h).2
    · obtain ⟨-, hrest⟩ := List.append_eq_nil_iff.mp h
      exact (List.append_eq_nil_iff.mp hrest).1
    · obtain ⟨-, hrest⟩ := List.append_eq_nil_iff.mp h
      exact (List.append_eq_nil_iff.mp hrest).2

/-- The sources of a chain that has a term have terms of their own. -/
theorem source_generates (h : (q.generate c).result = .ok t)
    {source : Query} (hsource : q.firstSource? = some source ∨
      ∃ i, q.secondSource? = some (i, source)) :
    ∃ own, (source.generate c).result = .ok own := by
  have hnone : q.violations c [] = [] := by
    have hverdict := verdict_walk c q .fresh
    cases hviolations : q.violations c [] with
    | nil => rfl
    | cons e es =>
        have herror := (verdict_error hverdict).mpr
          (congrArg List.head? hviolations)
        cases h.symm.trans herror
  have hverdict := verdict_walk c source .fresh
  rw [show Context.fresh.scope.map Prod.fst = [] from rfl,
    source_violations hsource hnone] at hverdict
  exact hverdict

/-- How many numbers a term of its own declares. -/
theorem declared_of_generate (h : (q.generate c).result = .ok t) :
    t.declared.length = q.layout.count := by
  obtain ⟨m, hm, -, hok⟩ := job_counts c (.query q) 1
  have hm' : (q.generate c).context.next = m := congrArg Context.next hm
  obtain ⟨⟨-, hperm⟩, -⟩ := hok t h
  rw [hperm.length_eq, List.length_map, List.length_range', ← hm',
    next_of_generate h, Nat.add_sub_cancel_left]

/-- **A chain means the same wherever it is embedded.**  A chain that has
    a term of its own, with numbers below `2 ^ 53`, has in every context,
    whatever is in scope there, the same term with the number of every
    variable higher by as much as the next number is; and nothing else
    changes.  One that has none fails in every context with the same
    error, unless the error is a parameter that nothing declares.  So an
    operation takes its rows from the very term that its source has of
    its own, a second source stands beside it as its own term raised by
    how many variables the first declares, and every chain in the chain,
    at any depth, stands as its own term raised by how many variables are
    numbered before it. -/
theorem chains_relocate (c : Converter) (q : Query) :
    (∀ t, (q.generate c).result = .ok t →
      (q.generate c).context.next ≤ 2 ^ 53 →
      (∀ ctx : Context, 1 ≤ ctx.next →
        (q.walk c ctx).result = .ok (t.raise (ctx.next - 1))) ∧
      (∀ first, q.firstSource? = some first →
        ∃ own, (first.generate c).result = .ok own ∧
          t.args[0]? = some own ∧
          ∀ i second, q.secondSource? = some (i, second) →
            ∃ other, (second.generate c).result = .ok other ∧
              t.args[i]? = some (other.raise own.declared.length)) ∧
      ∀ s ∈ q.layout.chains, ∀ own,
        (s.item.generate c).result = .ok own →
          t.At s.path (own.raise s.before)) ∧
    ∀ e, (q.generate c).result = .error e →
      (∀ p, e ≠ .unsupported (.freeParam p)) →
        ∀ ctx, (q.walk c ctx).result = .error e := by
  refine ⟨fun t ht hnext => ⟨fun ctx hctx => ?_, ?_, ?_⟩,
    fun e he hfree ctx => error_anywhere he hfree ctx⟩
  · obtain ⟨hresult, -⟩ := follows_job c (.query q) ctx.scope ctx.next
    have hraised := translate_raised ht hnext (.ofScope ctx.scope)
      (ctx.next - 1)
    rw [Nat.add_sub_cancel' hctx] at hraised
    exact hresult.trans (congrArg Prod.fst hraised)
  · intro first hfirst
    obtain ⟨own, hown⟩ := source_generates ht (.inl hfirst)
    obtain ⟨hbound, hat⟩ :=
      raised_at ht hnext (firstSource_spot hfirst) hown
    rw [raise_zero hown hbound] at hat
    obtain ⟨u, hu, heq⟩ := hat
    replace heq : own = u := heq
    refine ⟨own, hown, heq ▸ hu, fun i second hsecond => ?_⟩
    obtain ⟨other, hother⟩ := source_generates ht (.inr ⟨i, hsecond⟩)
    obtain ⟨-, v, hv, heq'⟩ :=
      raised_at ht hnext (secondSource_spot hfirst hsecond) hother
    replace heq' : other.raise first.layout.count = v := heq'
    refine ⟨other, hother, ?_⟩
    rw [declared_of_generate hown, heq']
    exact hv
  · intro s hs own hown
    exact (raised_at ht hnext hs hown).2

/-- The identities of the rows of a table. -/
def identities (name : String) (row : Param) : Query :=
  .rowStep (.root (.table ⟨none, name, false⟩)) .map
    (.mk row (.field (.param row) "id"))

/-- Pairs of identities, where the left one counts the identities in a
    third table. -/
def countedPairs : Query :=
  .join .inner (identities "t" ⟨0⟩) (identities "u" ⟨1⟩)
    (.mk ⟨2⟩ ⟨3⟩ (.compare .eq (.param ⟨2⟩)
      (.call "count" [.subquery 0 (identities "v" ⟨4⟩)])))

theorem chains_relocate_countedPairs :
    let c : Converter := .standard .strict
    (∃ t, (countedPairs.generate c).result = .ok t ∧
      (countedPairs.walk c ⟨9, [(⟨2⟩, 3), (⟨4⟩, 8)]⟩).result
        = .ok (t.raise 8) ∧
      (∃ own, ((identities "t" ⟨0⟩).generate c).result = .ok own ∧
        t.args[0]? = some own) ∧
      (∃ other, ((identities "u" ⟨1⟩).generate c).result = .ok other ∧
        t.args[1]? = some (other.raise 1)) ∧
      ∃ own, ((identities "v" ⟨4⟩).generate c).result = .ok own ∧
        t.At [.arg 2, .arg 1, .arg 1, .arg 0] (own.raise 4)) ∧
    ((Query.step countedPairs (.nth (-1))).walk
      ⟨fun _ => false, c.convert⟩ ⟨9, [(⟨2⟩, 3)]⟩).result
        = .error (.convert (.unsupported .int)) := by
  intro c
  obtain ⟨hok, -⟩ := chains_relocate c countedPairs
  obtain ⟨hwalk, hsources, hchains⟩ := hok _ rfl (by decide)
  obtain ⟨own, hown, harg, hsecond⟩ := hsources _ rfl
  obtain ⟨other, hother, harg'⟩ := hsecond 1 _ rfl
  cases hown
  refine ⟨⟨_, rfl, hwalk _ (by decide), ⟨_, rfl, harg⟩,
    ⟨other, hother, harg'⟩, _, rfl, ?_⟩, ?_⟩
  · exact hchains ⟨_, 4, identities "v" ⟨4⟩⟩
      (List.mem_of_getElem? (i := 4) rfl) _ rfl
  · obtain ⟨-, herror⟩ := chains_relocate ⟨fun _ => false, c.convert⟩
      (.step countedPairs (.nth (-1)))
    exact herror _ rfl (fun p h => by cases h) _

end ChainQuery

import ChainQuery.Proofs.Course
import ChainQuery.Proofs.Occasions

/-! # Questions — what the converter is asked

    The converter is asked about every literal of a chain, once for each
    occurrence, and about nothing else.  The route:

    * the notes of a walk are those of its occasions up to the first
      obstacle, so its questions are those about the literals among them
      (`questions_record`);
    * where nothing is in the way these are all literals, each asked about
      in full (`questions_of_none`); else the first obstacle splits the
      occasions in two, and what comes after it is not asked
      (`reached_of_some`);
    * a walk meets its converter in literals only: two converters that do
      the same with every literal of a chain walk it alike
      (`settled_hereditary`). -/

namespace ChainQuery

open Walk

variable {c c' : Converter} {declared : List Param} {xs ys os : List Occasion}

/-! ## The log of a walk -/

theorem questions_append (ms ns : List Note) :
    Note.questions (ms ++ ns) = Note.questions ms ++ Note.questions ns :=
  List.filterMap_append

theorem questions_asked (qs : List Question) :
    Note.questions (qs.map .asked) = qs := by
  induction qs with
  | nil => rfl
  | cons q qs ih => exact congrArg (q :: ·) ih

/-- Only literals leave questions. -/
theorem questions_record (c : Converter) (os : List Occasion) :
    Note.questions (record c os)
      = (reached c os).flatMap (Occasion.questions c) := by
  rw [record]
  induction reached c os with
  | nil => rfl
  | cons o rest ih =>
      rw [List.flatMap_cons, List.flatMap_cons, questions_append, ih]
      congr 1
      cases o with
      | literal v => exact questions_asked _
      | built kind args => rfl
      | stop e => rfl

/-- Without an obstacle everything is reached. -/
theorem reached_of_none (h : obstacles c os = []) : reached c os = os := by
  induction os with
  | nil => rfl
  | cons o os ih =>
      obtain ⟨ho, hos⟩ := List.append_eq_nil_iff.mp h
      rw [reached, ho]
      exact congrArg (o :: ·) (ih hos)

/-- Otherwise everything up to the first obstacle. -/
theorem reached_of_some {e : TermError}
    (h : (obstacles c os).head? = some e) :
    ∃ before o after, os = before ++ o :: after ∧
      obstacles c before = [] ∧ (o.violations c).head? = some e ∧
      reached c os = before ++ [o] := by
  induction os with
  | nil => cases h
  | cons o os ih =>
      cases ho : o.violations c with
      | nil =>
          replace h : (o.violations c ++ obstacles c os).head? = some e := h
          rw [ho] at h
          obtain ⟨before, last, after, rfl, hbefore, hlast, hreached⟩ := ih h
          refine ⟨o :: before, last, after, rfl, ?_, hlast, ?_⟩
          · exact List.append_eq_nil_iff.mpr ⟨ho, hbefore⟩
          · rw [reached, ho]
            exact congrArg (o :: ·) hreached
      | cons f fs =>
          replace h : (o.violations c ++ obstacles c os).head? = some e := h
          rw [ho] at h
          refine ⟨[], o, os, rfl, rfl, ?_, ?_⟩
          · rw [ho]
            exact h
          · rw [reached, ho]
            rfl

/-- Where nothing is in the way, every literal is asked about in full. -/
theorem questions_of_none (h : obstacles c os = []) :
    os.flatMap (Occasion.questions c)
      = (operands os).flatMap Converter.allQuestions := by
  induction os with
  | nil => rfl
  | cons o os ih =>
      obtain ⟨ho, hos⟩ := List.append_eq_nil_iff.mp h
      rw [List.flatMap_cons, ih hos]
      cases o with
      | literal v =>
          obtain ⟨hall, -⟩ := accepts_iff.mp ho
          exact congrArg (· ++ _) (Converter.questions_of_supported hall)
      | built kind args => rfl
      | stop e => rfl

/-! ## Converters that agree on literals -/

/-- Two converters do the same with every literal among occasions. -/
def Agree (c c' : Converter) (os : List Occasion) : Prop :=
  ∀ v ∈ operands os, c'.literal v = c.literal v

theorem agree_append (h : Agree c c' (xs ++ ys)) :
    Agree c c' xs ∧ Agree c c' ys := by
  rw [Agree, operands, List.filterMap_append, List.forall_mem_append] at h
  exact h

theorem agree_literal {v : Value} (h : Agree c c' [.literal v]) :
    c'.literal v = c.literal v :=
  h v (List.mem_singleton_self v)

theorem agree_literals {vs : List Value}
    (h : Agree c c' (literalOccasions vs)) :
    c'.literals vs = c.literals vs := by
  induction vs with
  | nil => rfl
  | cons v vs ih =>
      replace h : Agree c c' ([.literal v] ++ literalOccasions vs) := h
      obtain ⟨hv, hvs⟩ := agree_append h
      rw [Converter.literals, Converter.literals, agree_literal hv, ih hvs]

theorem agree_optionalLiteral {base : Option Value}
    (h : Agree c c' (literalOccasions base.toList)) :
    c'.optionalLiteral base = c.optionalLiteral base := by
  cases base with
  | none => rfl
  | some v =>
      rw [Converter.optionalLiteral, Converter.optionalLiteral,
        agree_literal h]

/-- Converters that agree on its literals walk an expression alike. -/
def Expr.Settled (c c' : Converter) (e : Expr) : Prop :=
  ∀ declared, Agree c c' (e.occasions declared) → e.walk c' = e.walk c

/-- Converters that agree on its literals walk a chain alike. -/
def Query.Settled (c c' : Converter) (q : Query) : Prop :=
  ∀ declared, Agree c c' (q.occasions declared) → q.walk c' = q.walk c

theorem settled_rowFunc {f : RowFunc} (h : f.toFunc.body.Settled c c')
    (hagree : Agree c c' (f.occasions declared)) :
    f.walk c' = f.walk c := by
  obtain ⟨row, body⟩ := f
  exact congrArg (functionWalk [row]) (h _ hagree)

theorem settled_pairFunc {f : PairFunc} (h : f.toFunc.body.Settled c c')
    (hagree : Agree c c' (f.occasions declared)) :
    f.walk c' = f.walk c := by
  obtain ⟨left, right, body⟩ := f
  exact congrArg (functionWalk [left, right]) (h _ hagree)

theorem settled_items {es : List Expr} (h : ∀ e ∈ es, e.Settled c c')
    (hagree : Agree c c' (itemOccasions declared es)) :
    walkItems c' es = walkItems c es := by
  induction es with
  | nil => rfl
  | cons e es ih =>
      obtain ⟨he, hes⟩ := List.forall_mem_cons.mp h
      obtain ⟨hfirst, hrest⟩ := agree_append hagree
      rw [walkItems, walkItems, he declared hfirst, ih hes hrest]

theorem settled_members {ms : List (String × Expr)}
    {earlier : List String} (h : ∀ m ∈ ms, m.2.Settled c c')
    (hagree : Agree c c' (memberOccasions declared earlier ms)) :
    walkMembers c' ms = walkMembers c ms := by
  induction ms generalizing earlier with
  | nil => rfl
  | cons m ms ih =>
      obtain ⟨name, e⟩ := m
      obtain ⟨he, hms⟩ := List.forall_mem_cons.mp h
      obtain ⟨hfirst, hrest⟩ := agree_append hagree
      obtain ⟨-, hlast⟩ := agree_append hrest
      funext done
      rw [walkMembers, walkMembers, he declared hfirst, ih hms hlast]

theorem settled_key {k : SortKey} (h : k.body.Settled c c')
    (hagree : Agree c c' (k.occasions declared)) :
    k.walk c' = k.walk c := by
  obtain ⟨selector, direction⟩ := k
  rw [SortKey.occasions] at hagree
  rw [SortKey.walk, SortKey.walk]
  cases hname : selector.toFunc.memberName? with
  | some name => rfl
  | none =>
      rw [hname] at hagree
      rw [settled_rowFunc h hagree]

theorem settled_keys {ks : List SortKey}
    (h : ∀ k ∈ ks, k.body.Settled c c')
    (hagree : Agree c c' (keyOccasions declared ks)) :
    walkKeys c' ks = walkKeys c ks := by
  induction ks with
  | nil => rfl
  | cons k ks ih =>
      obtain ⟨hk, hks⟩ := List.forall_mem_cons.mp h
      obtain ⟨hfirst, hrest⟩ := agree_append hagree
      rw [walkKeys, walkKeys, settled_key hk hfirst, ih hks hrest]

theorem settled_root {r : Root} (h : Agree c c' r.occasions) :
    r.walk c' = r.walk c := by
  cases r with
  | literal v => exact agree_literal h
  | literalSeq vs =>
      obtain ⟨hvs, -⟩ := agree_append h
      rw [Root.walk, Root.walk, agree_literals hvs]
  | insert t v upsert =>
      obtain ⟨-, hrest⟩ := agree_append h
      obtain ⟨hv, -⟩ := agree_append hrest
      rw [Root.walk, Root.walk, agree_literal hv]
  | _ => rfl

/-- Every form of node is walked alike. -/
theorem settled_hereditary (c c' : Converter) :
    Hereditary (Expr.Settled c c') (Query.Settled c c') where
  param _ _ _ := rfl
  literal _ _ h := agree_literal h
  field _ _ he declared h := by
    rw [Expr.walk, Expr.walk, he declared h]
  compare _ _ _ ha hb declared h := by
    obtain ⟨hleft, hright⟩ := agree_append h
    rw [Expr.walk, Expr.walk, ha declared hleft, hb declared hright]
  arith _ _ _ ha hb declared h := by
    obtain ⟨hleft, hright⟩ := agree_append h
    rw [Expr.walk, Expr.walk, ha declared hleft, hb declared hright]
  all _ hes _ h := by
    rw [Expr.walk, Expr.walk, settled_items hes h]
  any _ hes _ h := by
    rw [Expr.walk, Expr.walk, settled_items hes h]
  not _ he declared h := by
    rw [Expr.walk, Expr.walk, he declared h]
  array _ hes _ h := by
    rw [Expr.walk, Expr.walk, settled_items hes h]
  object _ hms _ h := by
    rw [Expr.walk, Expr.walk, settled_members hms h]
  call _ _ hes _ h := by
    obtain ⟨-, hargs⟩ := agree_append h
    rw [Expr.walk, Expr.walk, settled_items hes hargs]
  subquery _ _ hq := hq
  root _ _ h := settled_root h
  indexCreateWith _ _ _ hkey _ h := by
    obtain ⟨-, hrest⟩ := agree_append h
    obtain ⟨hk, -⟩ := agree_append hrest
    rw [Query.walk, Query.walk, settled_rowFunc hkey hk]
  step _ _ hq declared h := by
    obtain ⟨hsource, hrest⟩ := agree_append h
    obtain ⟨hliterals, -⟩ := agree_append hrest
    rw [Query.walk, Query.walk, hq declared hsource, literals_eq_carried,
      agree_literals hliterals]
  rowStep _ _ _ hq hf declared h := by
    obtain ⟨hsource, hrest⟩ := agree_append h
    obtain ⟨hfunc, -⟩ := agree_append hrest
    rw [Query.walk, Query.walk, hq declared hsource,
      settled_rowFunc hf hfunc]
  orderBy _ _ _ hq hfirst hothers declared h := by
    obtain ⟨hsource, hrest⟩ := agree_append h
    obtain ⟨hkey, hrest⟩ := agree_append hrest
    obtain ⟨hkeys, -⟩ := agree_append hrest
    rw [Query.walk, Query.walk, hq declared hsource,
      settled_key hfirst hkey, settled_keys hothers hkeys]
  union _ _ ha hb declared h := by
    obtain ⟨hleft, hrest⟩ := agree_append h
    obtain ⟨hright, -⟩ := agree_append hrest
    rw [Query.walk, Query.walk, ha declared hleft, hb declared hright]
  reduce _ _ _ hq hf declared h := by
    obtain ⟨hsource, hrest⟩ := agree_append h
    obtain ⟨hfunc, hrest⟩ := agree_append hrest
    obtain ⟨hbase, -⟩ := agree_append hrest
    rw [Query.walk, Query.walk, hq declared hsource,
      settled_pairFunc hf hfunc, agree_optionalLiteral hbase]
  groupBy _ _ _ hq hkey declared h := by
    obtain ⟨hsource, hrest⟩ := agree_append h
    obtain ⟨hk, -⟩ := agree_append hrest
    rw [Query.walk, Query.walk, hq declared hsource,
      settled_rowFunc hkey hk]
  groupedMapReduce _ _ _ _ _ hq hg hm hr declared h := by
    obtain ⟨hsource, hrest⟩ := agree_append h
    obtain ⟨hgroup, hrest⟩ := agree_append hrest
    obtain ⟨hmap, hrest⟩ := agree_append hrest
    obtain ⟨hreduce, hrest⟩ := agree_append hrest
    obtain ⟨hbase, -⟩ := agree_append hrest
    rw [Query.walk, Query.walk, hq declared hsource,
      settled_rowFunc hg hgroup, settled_rowFunc hm hmap,
      settled_pairFunc hr hreduce, agree_optionalLiteral hbase]
  join _ _ _ _ ha hb hf declared h := by
    obtain ⟨hleft, hrest⟩ := agree_append h
    obtain ⟨hright, hrest⟩ := agree_append hrest
    obtain ⟨hfunc, -⟩ := agree_append hrest
    rw [Query.walk, Query.walk, ha declared hleft, hb declared hright,
      settled_pairFunc hf hfunc]
  eqJoin _ _ _ _ ha hb declared h := by
    obtain ⟨hleft, hrest⟩ := agree_append h
    obtain ⟨-, hrest⟩ := agree_append hrest
    obtain ⟨hright, -⟩ := agree_append hrest
    rw [Query.walk, Query.walk, ha declared hleft, hb declared hright]

/-- Kinds that are supported alike are allowed and asked about alike. -/
theorem checked_congr {ks : List Value.Kind}
    (h : ∀ kind ∈ ks, c'.supports kind = c.supports kind) :
    c'.allow ks = c.allow ks ∧ c'.checked ks = c.checked ks := by
  induction ks with
  | nil => exact ⟨rfl, rfl⟩
  | cons k ks ih =>
      obtain ⟨hk, hks⟩ := List.forall_mem_cons.mp h
      obtain ⟨hallow, hchecked⟩ := ih hks
      rw [Converter.allow, Converter.allow, Converter.checked,
        Converter.checked, hk, hallow, hchecked]
      exact ⟨rfl, rfl⟩

/-- Converters that support the same kinds in a literal and convert it
    alike do the same with it. -/
theorem literal_congr {v : Value}
    (hkinds : ∀ kind ∈ v.kinds, c'.supports kind = c.supports kind)
    (hconvert : c'.convert v = c.convert v) :
    c'.literal v = c.literal v := by
  obtain ⟨hallow, hchecked⟩ := checked_congr hkinds
  have hall : (∀ kind ∈ v.kinds, c'.supports kind = true) ↔
      ∀ kind ∈ v.kinds, c.supports kind = true :=
    forall₂_congr fun kind hkind => by rw [hkinds kind hkind]
  funext ctx
  rw [literal_eq, literal_eq, Converter.judge, Converter.judge, hallow,
    hconvert, Converter.questions, Converter.questions, hchecked]
  simp only [hall]

/-! ## Whole chains -/

/-- A chain generated on its own is walked through its occasions, and the
    questions are those of the ones it reaches. -/
theorem questions_of_walk (c : Converter) (q : Query) :
    Note.questions (q.generate c).notes
        = (reached c (q.occasions [])).flatMap (Occasion.questions c) ∧
      Verdict (obstacles c (q.occasions [])) (q.generate c).result := by
  obtain ⟨-, hnotes, hverdict⟩ :=
    (performs_hereditary c).query q [] [] knows_outside 1
  refine ⟨?_, hverdict⟩
  show Note.questions ((q.walk c .fresh).notes ++ [.reported _]) = _
  rw [questions_append, ← questions_record, ← hnotes]
  exact List.append_nil _

/-- Nothing stands in the way of a chain that has a term. -/
theorem obstacles_of_ok {q : Query} {t : Term}
    (h : (q.generate c).result = .ok t) :
    obstacles c (q.occasions []) = [] := by
  obtain ⟨-, hverdict⟩ := questions_of_walk c q
  cases hsome : obstacles c (q.occasions []) with
  | nil => rfl
  | cons e es =>
      rw [hsome, h] at hverdict
      cases hverdict

/-- Every literal of a chain that has a term was accepted. -/
theorem accepts_of_ok {q : Query} {t : Term}
    (h : (q.generate c).result = .ok t) : ∀ v ∈ q.operands, c.Accepts v := by
  intro v hv
  obtain ⟨o, hmem, ho⟩ := List.mem_filterMap.mp hv
  have hnone := List.flatMap_eq_nil_iff.mp (obstacles_of_ok h) o hmem
  cases o with
  | literal w =>
      cases ho
      exact accepts_iff.mp hnone
  | built kind args => cases ho
  | stop e => cases ho

/-- Converters that do the same with the literals of a chain generate it
    alike. -/
theorem generate_congr {q : Query}
    (h : ∀ v ∈ q.operands, c'.literal v = c.literal v) :
    q.generate c' = q.generate c := by
  have hwalk : q.walk c' = q.walk c :=
    (settled_hereditary c c').query q [] h
  rw [Query.generate, Query.generate, hwalk]

/-- **The converter is asked about every literal and nothing else.**
    Generated on its own, a chain asks about its literal operands in build
    order, once for each occurrence: about every kind in the value, and
    then for one conversion.  If generation fails, the first obstacle is a
    literal, which is asked about up to the refusal or the conversion that
    fails, or has no term, and is not asked about; everything before it is
    asked about in full and nothing after it at all.  A converter that
    differs only on other values, whatever it makes of names, bounds and
    flags, gives the same term, or error, in the same way. -/
theorem questions_of_generate (c : Converter) (q : Query) :
    (∀ t, (q.generate c).result = .ok t →
      Note.questions (q.generate c).notes
        = q.operands.flatMap Converter.allQuestions) ∧
    (∀ e, (q.generate c).result = .error e →
      ∃ before o after, q.occasions [] = before ++ o :: after ∧
        obstacles c before = [] ∧ (o.violations c).head? = some e ∧
        Note.questions (q.generate c).notes
          = (operands before).flatMap Converter.allQuestions
            ++ o.questions c) ∧
    ∀ c' : Converter,
      (∀ v ∈ q.operands,
        (∀ kind ∈ v.kinds, c'.supports kind = c.supports kind) ∧
          c'.convert v = c.convert v) →
        q.generate c' = q.generate c := by
  obtain ⟨hquestions, hverdict⟩ := questions_of_walk c q
  refine ⟨?_, ?_, ?_⟩
  · intro t ht
    have hnone := obstacles_of_ok ht
    rw [hquestions, reached_of_none hnone]
    exact questions_of_none hnone
  · intro e he
    obtain ⟨before, o, after, hsplit, hbefore, ho, hreached⟩ :=
      reached_of_some ((verdict_error hverdict).mp he)
    refine ⟨before, o, after, hsplit, hbefore, ho, ?_⟩
    rw [hquestions, hreached, List.flatMap_append,
      questions_of_none hbefore, List.flatMap_singleton]
  · intro c' hagree
    refine generate_congr fun v hv => ?_
    obtain ⟨hkinds, hconvert⟩ := hagree v hv
    exact literal_congr hkinds hconvert

/-- The first five games, outdated ones too, with a score above ten. -/
def highScores : Query :=
  let row : Param := ⟨0⟩
  .step (.rowStep (.root (.table ⟨none, "games", true⟩)) .filter
    (.mk row (.compare .gt (.field (.param row) "score")
      (.literal (.int 10))))) (.limit 5)

/-- Nothing is asked about the flag and the names, so a converter that
    refuses them does as well; one that refuses integers is asked once. -/
theorem questions_of_generate_highScores :
    let c := Converter.standard .strict
    Note.questions (highScores.generate c).notes
        = [.supports .int, .convert .int, .supports .int, .convert .int] ∧
      highScores.generate (c.adjusted [] [.bool, .text])
        = highScores.generate c ∧
      ∃ before o after, highScores.occasions [] = before ++ o :: after ∧
        obstacles (c.adjusted [] [.int]) before = [] ∧
        (o.violations (c.adjusted [] [.int])).head?
          = some (.convert (.unsupported .int)) ∧
        Note.questions (highScores.generate (c.adjusted [] [.int])).notes
          = (operands before).flatMap Converter.allQuestions
            ++ o.questions (c.adjusted [] [.int]) := by
  intro c
  obtain ⟨hasked, -, hsettled⟩ := questions_of_generate c highScores
  obtain ⟨-, hrefused, -⟩ :=
    questions_of_generate (c.adjusted [] [.int]) highScores
  refine ⟨hasked _ rfl, hsettled _ ?_, hrefused _ rfl⟩
  have hoperands : highScores.operands = [.int 10, .int 5] := rfl
  rw [hoperands]
  simp [c, Value.kinds, Value.kind, Converter.adjusted, Converter.standard]

end ChainQuery
